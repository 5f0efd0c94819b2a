import RingTape.Proofs.Arena

/-!
Discarding in an arena. The children of a cell are unhooked by cutting their ring behind the last of them, after which
a walk forward no longer returns, and by a second walk from the other side of the anchor where the ring was an arc. What
is unhooked waits on a worklist. Every cell below the one to be cleared is on it once, so the worklist is drained in as
many rounds as there are cells.
-/

namespace RingTape

set_option autoImplicit false

namespace Arena

/-- End the links forward at a cell, if there is one. -/
def cut (arena : Arena) : Option CellId → Option Arena
  | none => some arena
  | some last => arena.edit last fun fields => { fields with next := none }

/-- Let a cell have no children. -/
def orphan (arena : Arena) (id : CellId) : Arena :=
  arena.amend id fun fields => { fields with instantiated := 0, firstChild := none }

/-- Take the children of a cell from it, and list them. -/
noncomputable def unhook (arena : Arena) (id : CellId) : Option (Arena × List CellId) := do
  let fields ← arena.slots id
  let arena := arena.orphan id
  match fields.firstChild with
  | none => return (arena, [])
  | some first =>
      let anchor ← arena.slots first
      let arena ← arena.cut anchor.prev
      let (ahead, _) ← arena.chase Fields.next none (some first)
      if fields.isFull then
        return (arena, ahead)
      let (behind, _) ← arena.chase Fields.prev none anchor.prev
      return (arena, ahead ++ behind)

/-- Discard the first cell of a worklist, and put its children on the worklist. -/
noncomputable def drainRound (onward : Arena × List CellId → Option Arena) : Arena × List CellId → Option Arena
  | (arena, []) => some arena
  | (arena, current :: rest) => do
      let (arena, children) ← arena.unhook current
      onward (arena.discard current, children.reverse ++ rest)

/-- Discard the cells of a worklist, and everything below them. -/
noncomputable def drain (arena : Arena) (doomed : List CellId) : Option Arena :=
  Recursion.solve drainRound (arena, doomed)

/-- Discard everything below a cell. -/
noncomputable def reset (arena : Arena) (id : CellId) : Option Arena := do
  let (arena, children) ← arena.unhook id
  arena.drain children.reverse

/-- What cutting does: a link forward ends, and nothing else changes. -/
structure Cut (arena later : Arena) (last : Option CellId) : Prop where
  pool : later.pool = arena.pool
  ended : ∀ id, last = some id → later.slots id = (arena.slots id).map fun fields => { fields with next := none }
  elsewhere : ∀ id, last ≠ some id → later.slots id = arena.slots id

theorem cut_spec {arena : Arena} {last : Option CellId} (live : ∀ id ∈ last, arena.slots id ≠ none) :
    ∃ later, arena.cut last = some later ∧ Cut arena later last := by
  cases last with
  | none =>
      refine ⟨arena, rfl, rfl, ?_, fun _ _ => rfl⟩
      intro id same
      cases same
  | some last =>
      refine ⟨arena.amend last fun fields => { fields with next := none }, arena.edit_eq (live last rfl) _, rfl, ?_, ?_⟩
      · intro id same
        obtain rfl := Option.some.inj same
        exact arena.slots_amend_self _ _
      · intro id other
        exact arena.slots_amend_of_ne _ fun same => other (congrArg some same.symm)

/-- The links backward are not cut. -/
theorem Cut.map_prev {arena later : Arena} {last : Option CellId} (cut : Cut arena later last) (id : CellId) :
    (later.slots id).map Fields.prev = (arena.slots id).map Fields.prev := by
  by_cases isLast : last = some id
  · rw [cut.ended id isLast, Option.map_map]
    rfl
  · rw [cut.elsewhere id isLast]

/-- What unhooking does: the cell has no children, they keep all but a link forward, and nothing else changes. -/
structure Unhooked (arena later : Arena) (cell : Cell) : Prop where
  pool : later.pool = arena.pool
  own : later.slots cell.id =
    (arena.slots cell.id).map fun fields => { fields with instantiated := 0, firstChild := none }
  children : ∀ child ∈ cell.ring.members, ∃ next,
    later.slots child.id = (arena.slots child.id).map fun fields => { fields with next := next }
  elsewhere : ∀ id, id ≠ cell.id → id ∉ cell.ring.members.map Cell.id → later.slots id = arena.slots id

section Unhooking

variable {arena : Arena} {cell : Cell} (lays : arena.Lays cell) (distinct : (cell.ring.line.map Cell.id).Nodup)
  (fits : cell.Fits)

include lays distinct fits

/-- Once a ring is cut behind its anchor, the links forward lead from the anchor to an end. -/
theorem Lays.chains_cut {later : Arena} {last : Option CellId}
    (isLast : last = if cell.isClosed then cell.ring.forward.getLast?.map Cell.id
      else cell.ring.backward.head?.map Cell.id) (cut : Cut arena later last) :
    later.Chains Fields.next (cell.ring.forward.map Cell.id) none := by
  have ahead := lays.chains_forward distinct fits
  cases closed : cell.isClosed with
  | false =>
      rw [closed, if_neg Bool.false_ne_true] at ahead isLast
      refine ahead.congr fun id among => ?_
      rw [cut.elsewhere id]
      rw [isLast, ← List.head?_map]
      intro same
      rw [Ring.line, List.map_append, List.nodup_append] at distinct
      have behind : id ∈ cell.ring.backward.reverse.map Cell.id := by
        rw [List.map_reverse, List.mem_reverse]
        exact List.mem_of_head? same
      exact distinct.2.2 id behind id among rfl
  | true =>
      rw [closed, if_pos rfl] at ahead isLast
      rw [← List.getLast?_map, List.getLast?_eq_getElem?] at isLast
      have once := forward_nodup distinct
      intro place id there
      obtain ⟨bounded, _⟩ := List.getElem?_eq_some_iff.mp there
      obtain ⟨fields, found, next⟩ := ahead place id there
      by_cases atEnd : place + 1 = (cell.ring.forward.map Cell.id).length
      · have same : last = some id := by
          rw [isLast, ← there]
          congr 1
          omega
        refine ⟨_, by rw [cut.ended id same, found]; rfl, ?_⟩
        rw [List.getElem?_eq_none (by omega)]
        rfl
      · have other : last ≠ some id := by
          intro same
          rw [isLast, ← there] at same
          have equal := (List.getElem?_inj (by omega) once).mp same
          omega
        refine ⟨fields, by rw [cut.elsewhere id other, found], ?_⟩
        rw [next, List.getElem?_eq_getElem (by omega)]
        rfl

omit lays distinct fits in
/-- A cell with children is full just if its ring is closed. -/
theorem isFull_eq_isClosed {fields : Fields} (value : fields.value = cell.value)
    (count : fields.instantiated = cell.instantiated) (some : cell.ring.forward ≠ []) :
    fields.isFull = cell.isClosed := by
  have front : cell.ring.forward.isEmpty = false := List.isEmpty_eq_false_iff.mpr some
  rw [Fields.isFull, value, count, Cell.isClosed, Ring.isClosed, front]
  rfl

omit lays distinct fits in
/-- The cell behind the anchor is in the ring. -/
theorem exists_last {last : Option CellId} (isLast : last = if cell.isClosed then cell.ring.forward.getLast?.map Cell.id
    else cell.ring.backward.head?.map Cell.id) : ∀ id ∈ last, ∃ child ∈ cell.ring.members, child.id = id := by
  intro id same
  rw [isLast] at same
  split at same
  · obtain ⟨child, ends, equal⟩ := Option.map_eq_some_iff.mp same
    exact ⟨child, List.mem_append_left _ (List.mem_of_getLast? ends), equal⟩
  · obtain ⟨child, starts, equal⟩ := Option.map_eq_some_iff.mp same
    exact ⟨child, List.mem_append_right _ (List.mem_of_head? starts), equal⟩

omit distinct fits in
/-- A cell is unhooked if it has no children any more, and their ring is cut. -/
theorem Lays.unhooked (apart : ∀ child ∈ cell.ring.members, child.id ≠ cell.id) {later : Arena} {last : Option CellId}
    (ofRing : ∀ id ∈ last, ∃ child ∈ cell.ring.members, child.id = id) (cut : Cut (arena.orphan cell.id) later last) :
    Unhooked arena later cell := by
  have kept (id : CellId) (other : id ≠ cell.id) : (arena.orphan cell.id).slots id = arena.slots id :=
    arena.slots_amend_of_ne _ other
  refine ⟨cut.pool, ?_, ?_, ?_⟩
  · rw [cut.elsewhere cell.id]
    · exact arena.slots_amend_self _ _
    · intro isLast
      obtain ⟨child, among, same⟩ := ofRing _ isLast
      exact apart child among same
  · intro child among
    by_cases isLast : last = some child.id
    · exact ⟨none, by rw [cut.ended _ isLast, kept _ (apart child among)]⟩
    · refine ⟨(cell.childFields child).next, ?_⟩
      rw [cut.elsewhere _ isLast, kept _ (apart child among), lays child among]
      rfl
  · intro id other outside
    rw [cut.elsewhere id, kept id other]
    intro isLast
    obtain ⟨child, among, same⟩ := ofRing id isLast
    exact outside (List.mem_map.mpr ⟨child, among, same⟩)

/-- The walks that unhook the children of a cell end, and list the children. -/
theorem Lays.unhook (bears : arena.Bears cell) (apart : ∀ child ∈ cell.ring.members, child.id ≠ cell.id) :
    ∃ later, arena.unhook cell.id = some (later, cell.ring.members.map Cell.id) ∧ Unhooked arena later cell := by
  obtain ⟨fields, found, value, count, enters⟩ := bears
  have orphaned : (arena.orphan cell.id).Lays cell :=
    lays.congr fun child ofRing => arena.slots_amend_of_ne _ (apart child ofRing)
  rw [Arena.unhook, found]
  simp only [Option.bind_eq_bind, Option.bind_some]
  cases front : cell.ring.forward with
  | nil =>
      have none : cell.ring.members = [] := by rw [Ring.members, front, fits.anchored front]; rfl
      rw [enters, front, none]
      exact ⟨_, rfl, rfl, arena.slots_amend_self _ _, by simp [none], fun id other _ => arena.slots_amend_of_ne _ other⟩
  | cons first rest =>
      have head : cell.ring.forward.head? = some first := by rw [front]; rfl
      obtain ⟨anchor, anchorFound, prev⟩ := orphaned.anchor_prev distinct fits head
      have lastMember := exists_last prev
      have lastLive : ∀ id ∈ anchor.prev, (arena.orphan cell.id).slots id ≠ none := by
        intro id isLast
        obtain ⟨child, ofRing, rfl⟩ := lastMember id isLast
        rw [orphaned child ofRing]
        exact Option.some_ne_none _
      obtain ⟨later, cutting, cut⟩ := cut_spec lastLive
      refine ⟨later, ?_, lays.unhooked apart lastMember cut⟩
      have ahead : later.chase Fields.next none (some first.id) = some (cell.ring.forward.map Cell.id, false) := by
        have walked : later.chase Fields.next none (cell.ring.forward.map Cell.id).head? = _ :=
          chase_to_end (orphaned.chains_cut distinct fits prev cut) (by simp)
        rwa [List.head?_map, head] at walked
      rw [enters, head]
      simp only [Option.map_some, anchorFound, cutting, Option.bind_some, ahead]
      rw [isFull_eq_isClosed value count (by simp [front]), Ring.members]
      cases closed : cell.isClosed with
      | true => rw [closed_backward fits closed, List.append_nil]; rfl
      | false =>
          have behind : later.chase Fields.prev none (cell.ring.backward.map Cell.id).head? = _ :=
            chase_to_end ((orphaned.chains_backward distinct closed).congr fun id _ => cut.map_prev id) (by simp)
          rw [closed, if_neg Bool.false_ne_true, ← List.head?_map] at prev
          rw [prev, behind, List.map_append]
          rfl

end Unhooking

end Arena

theorem Cell.forestPostorder_append (left right : List Cell) :
    forestPostorder (left ++ right) = forestPostorder left ++ forestPostorder right := by
  induction left with
  | nil => rfl
  | cons cell rest induction => simp [forestPostorder, induction]

theorem Cell.postorder_eq (cell : Cell) : cell.postorder = forestPostorder cell.ring.members ++ [cell.id] := by
  rcases cell with ⟨id, value, ⟨forward, backward⟩⟩
  rw [postorder, Ring.members, forestPostorder_append]

/-- Unhooking the children of a tree leaves the same cells. -/
theorem Cell.ids_perm_unhooked (cell : Cell) (rest : List Cell) :
    (cell.id :: forestIds (cell.ring.members.reverse ++ rest)).Perm (forestIds (cell :: rest)) := by
  rw [forestIds_cons, ids_eq, forestIds_append, List.cons_append]
  exact ((forestIds_perm (List.reverse_perm _)).append_right _).cons _

namespace Arena

section Draining

theorem LaysOut.congr {arena later : Arena} {cells : List Cell} (laid : arena.LaysOut cells)
    (same : ∀ id ∈ Cell.forestIds cells, later.slots id = arena.slots id) : later.LaysOut cells := by
  refine ⟨laid.distinct, laid.rings, ?_, ?_⟩
  · intro cell among
    obtain ⟨fields, found, rest⟩ := laid.bears cell among
    refine ⟨fields, ?_, rest⟩
    rw [same cell.id (Cell.id_mem_forestIds among), found]
  · intro node inside
    refine (laid.lays node inside).congr fun child ofRing => same child.id ?_
    exact (Cell.mem_forestIds _ _).mpr ⟨child, Cell.forestNodes_subset _ _ inside _
      (Cell.mem_nodes_of_member node child child ofRing (Cell.mem_nodes_self child)), rfl⟩

variable {arena : Arena} {cell : Cell} {rest : List Cell} (laid : arena.LaysOut (cell :: rest))

include laid

theorem LaysOut.unhook :
    ∃ later, arena.unhook cell.id = some (later, cell.ring.members.map Cell.id) ∧ Unhooked arena later cell := by
  have inside : cell ∈ Cell.forestNodes (cell :: rest) :=
    (Cell.mem_forestNodes _ _).mpr ⟨cell, List.mem_cons_self, Cell.mem_nodes_self cell⟩
  refine (laid.lays cell inside).unhook (Cell.line_ids_nodup laid.distinct inside) (laid.rings cell inside)
    (laid.bears cell List.mem_cons_self) ?_
  intro child ofRing same
  have once := Cell.ids_nodup laid.distinct inside
  rw [Cell.ids_eq, List.nodup_cons] at once
  exact once.1 (same ▸ Cell.id_mem_forestIds ofRing)

/-- After the children of a cell are unhooked, they are laid out as trees of their own. -/
theorem LaysOut.release {later : Arena} (unhooked : Unhooked arena later cell) :
    later.LaysOut (cell.ring.members.reverse ++ rest) := by
  have inside : cell ∈ Cell.forestNodes (cell :: rest) :=
    (Cell.mem_forestNodes _ _).mpr ⟨cell, List.mem_cons_self, Cell.mem_nodes_self cell⟩
  have once := (Cell.ids_perm_unhooked cell rest).nodup_iff.mpr laid.distinct
  rw [List.nodup_cons] at once
  have among (node : Cell) (lower : node ∈ Cell.forestNodes (cell.ring.members.reverse ++ rest)) :
      node ∈ Cell.forestNodes (cell :: rest) := by
    obtain ⟨top, isTop, under⟩ := (Cell.mem_forestNodes _ _).mp lower
    rcases List.mem_append.mp isTop with child | other
    · exact (Cell.mem_forestNodes _ _).mpr
        ⟨cell, List.mem_cons_self, Cell.mem_nodes_of_member cell top node (List.mem_reverse.mp child) under⟩
    · exact (Cell.mem_forestNodes _ _).mpr ⟨top, List.mem_cons_of_mem _ other, under⟩
  have kept {id : CellId} (lower : id ∈ Cell.forestIds (cell.ring.members.reverse ++ rest))
      (outside : id ∉ cell.ring.members.map Cell.id) : later.slots id = arena.slots id :=
    unhooked.elsewhere id (fun same => once.1 (same ▸ lower)) outside
  refine ⟨once.2, fun node lower => laid.rings node (among node lower), ?_, ?_⟩
  · intro top isTop
    rcases List.mem_append.mp isTop with child | other
    · obtain ⟨next, slot⟩ := unhooked.children top (List.mem_reverse.mp child)
      rw [laid.lays cell inside top (List.mem_reverse.mp child)] at slot
      exact ⟨_, slot, rfl, rfl, rfl⟩
    · obtain ⟨fields, found, holds⟩ := laid.bears top (List.mem_cons_of_mem _ other)
      refine ⟨fields, ?_, holds⟩
      rw [← found]
      apply kept (Cell.id_mem_forestIds isTop)
      intro ofRing
      obtain ⟨child, member, same⟩ := List.mem_map.mp ofRing
      have lost := once.2
      rw [Cell.forestIds_append, List.nodup_append] at lost
      have below : top.id ∈ Cell.forestIds cell.ring.members.reverse :=
        same ▸ Cell.id_mem_forestIds (List.mem_reverse.mpr member)
      exact lost.2.2 top.id below top.id (Cell.id_mem_forestIds other) rfl
  · intro node lower
    refine (laid.lays node (among node lower)).congr fun child ofRing => ?_
    apply kept
    · exact (Cell.mem_forestIds _ _).mpr ⟨child, Cell.forestNodes_subset _ _ lower _
        (Cell.mem_nodes_of_member node child child ofRing (Cell.mem_nodes_self child)), rfl⟩
    · -- A cell has only one parent, and the cell that lost its children is not among those that are left.
      intro ofCell
      have same := Cell.parent_unique _ laid.distinct node cell (among node lower) inside child.id
        (List.mem_map.mpr ⟨child, ofRing, rfl⟩) ofCell
      exact once.1 ((Cell.mem_forestIds _ _).mpr ⟨node, lower, congrArg Cell.id same⟩)

theorem LaysOut.discard_eq {later : Arena} (unhooked : Unhooked arena later cell) :
    later.discard cell.id = { later.put cell.id none with pool := arena.pool.give [cell.id] } := by
  obtain ⟨fields, found, _⟩ := laid.bears cell List.mem_cons_self
  rw [Arena.discard, unhooked.own, found, ← unhooked.pool]
  rfl

/-- What is left on the worklist after a cell is discarded is laid out. -/
theorem LaysOut.remaining {later : Arena} (unhooked : Unhooked arena later cell) :
    (later.discard cell.id).LaysOut (cell.ring.members.reverse ++ rest) := by
  have once := (Cell.ids_perm_unhooked cell rest).nodup_iff.mpr laid.distinct
  refine (laid.release unhooked).congr fun id lower => ?_
  rw [laid.discard_eq unhooked]
  exact later.slots_put_of_ne _ fun same => (List.nodup_cons.mp once).1 (same ▸ lower)

omit laid in
/-- An arena without some trees, after their cells were discarded from the last one on. -/
def without (arena : Arena) (cells : List Cell) : Arena where
  slots id := if id ∈ Cell.forestIds cells then none else arena.slots id
  pool := arena.pool.give (Cell.forestPostorder cells.reverse)

/-- Discarding a tree is discarding its root, and then its children. -/
theorem LaysOut.without_eq {later : Arena} (unhooked : Unhooked arena later cell) :
    (later.discard cell.id).without (cell.ring.members.reverse ++ rest) = arena.without (cell :: rest) := by
  have left := Cell.ids_perm_unhooked cell rest
  rw [laid.discard_eq unhooked]
  refine Arena.eq_mk (funext fun id => ?_) ?_
  · have among : id ∈ Cell.forestIds (cell :: rest) ↔
        id = cell.id ∨ id ∈ Cell.forestIds (cell.ring.members.reverse ++ rest) := by
      rw [← left.mem_iff, List.mem_cons]
    show (if id ∈ Cell.forestIds (cell.ring.members.reverse ++ rest) then none
      else (later.put cell.id none).slots id) = _
    by_cases same : id = cell.id
    · rw [if_pos (among.mpr (Or.inl same)), same]
      split
      case isTrue => rfl
      case isFalse => exact if_pos rfl
    · simp only [among, same, false_or, later.slots_put_of_ne _ same]
      split
      case isTrue => rfl
      case isFalse lower =>
        refine unhooked.elsewhere id same fun ofRing => lower ?_
        obtain ⟨child, member, rfl⟩ := List.mem_map.mp ofRing
        exact Cell.id_mem_forestIds (List.mem_append_left _ (List.mem_reverse.mpr member))
  · simp [without, Pool.give, Cell.forestPostorder_append, Cell.postorder_eq, Cell.forestPostorder]

end Draining

theorem drain_eq (arena : Arena) (doomed : List CellId) :
    arena.drain doomed = drainRound (fun state => state.1.drain state.2) (arena, doomed) := by
  refine Recursion.solve_eq (fun state => ?_) (arena, doomed)
  rcases state with ⟨arena, doomed⟩
  cases doomed with
  | nil => exact Recursion.finitary_const _
  | cons current rest => exact (Recursion.finitary_const _).bind fun _ => Recursion.finitary_call _

/-- The worklist is drained: what was on it and below it is gone. -/
theorem LaysOut.drain {arena : Arena} {doomed : List Cell} (laid : arena.LaysOut doomed) :
    arena.drain (doomed.map Cell.id) = some (arena.without doomed) := by
  -- Each round takes one cell from the worklist and puts its children there, so one cell less is left.
  generalize size : (Cell.forestIds doomed).length = count
  induction count generalizing arena doomed with
  | zero =>
      cases doomed with
      | nil => rw [drain_eq]; rfl
      | cons cell rest => simp [Cell.ids_eq] at size
  | succ count induction =>
      cases doomed with
      | nil => simp at size
      | cons cell rest =>
          obtain ⟨later, unhooking, unhooked⟩ := laid.unhook
          have fewer : (Cell.forestIds (cell.ring.members.reverse ++ rest)).length = count := by
            have length := (Cell.ids_perm_unhooked cell rest).length_eq
            rw [List.length_cons, size] at length
            omega
          have drained := induction (laid.remaining unhooked) fewer
          rw [laid.without_eq unhooked, List.map_append, List.map_reverse] at drained
          rw [List.map_cons, drain_eq, drainRound, unhooking]
          exact drained

/-- An arena after everything below a cell is discarded. -/
def cleared (arena : Arena) (cell : Cell) : Arena where
  slots id := if id ∈ Cell.forestIds cell.ring.members then none else (arena.orphan cell.id).slots id
  pool := arena.pool.give cell.descendants

/-- Clearing a cell ends, and discards what was below the cell. -/
theorem LaysOut.reset {arena : Arena} {cell : Cell} (laid : arena.LaysOut [cell]) :
    arena.reset cell.id = some (arena.cleared cell) := by
  obtain ⟨later, unhooking, unhooked⟩ := laid.unhook
  have drained := (laid.release unhooked).drain
  rw [List.append_nil, List.map_reverse] at drained
  rw [Arena.reset, unhooking]
  refine drained.trans (congrArg some (Arena.eq_mk (funext fun id => ?_) ?_))
  · have same := (Cell.forestIds_perm (List.reverse_perm cell.ring.members)).mem_iff (a := id)
    simp only [without, same]
    by_cases below : id ∈ Cell.forestIds cell.ring.members
    · rw [if_pos below, if_pos below]
    · rw [if_neg below, if_neg below]
      by_cases isCell : id = cell.id
      · rw [isCell, unhooked.own]
        exact (arena.slots_amend_self _ _).symm
      · rw [unhooked.elsewhere id isCell fun ofRing => below ?_]
        · exact (arena.slots_amend_of_ne _ isCell).symm
        · obtain ⟨child, member, rfl⟩ := List.mem_map.mp ofRing
          exact Cell.id_mem_forestIds member
  · rw [without, unhooked.pool, List.reverse_reverse]
    rfl

end Arena

namespace Store

variable {store : Store} (sound : store.Sound) {host : Cell} (inside : host ∈ store.nodes)

include sound inside

/-- Clearing a cell in the arena of a store gives the arena of the store after clearing. -/
theorem reset_arena : store.arena.reset host.id =
    some (store.replace host.id host.value Ring.empty (store.pool.give host.descendants)).arena := by
  rw [(sound.laysOut.subtree inside).reset]
  refine congrArg some (arena_replace sound.distinct inside (sound.clear inside host.value).distinct rfl ?_ ?_ ?_ ?_)
  · have once := Cell.ids_nodup sound.distinct inside
    rw [Cell.ids_eq, List.nodup_cons] at once
    have found : store.arena.slots host.id = _ := fields?_of_mem sound.distinct inside
    refine (if_neg once.1).trans ((store.arena.slots_amend_self _ _).trans ?_)
    rw [found]
    rfl
  · intro node among
    exact Arena.lays_of_bare rfl among
  · intro id below _
    exact if_pos below
  · intro id outside _
    rw [Cell.ids_eq, List.mem_cons, not_or] at outside
    exact (if_neg outside.2).trans (store.arena.slots_amend_of_ne _ outside.1)

end Store

end RingTape
