import RingTape.Proofs.DeepCopy
import Mathlib.Data.Set.Function

/-!
What a snapshot tells of a subtree. Cells have the same snapshot just if one of them is the other in other slots, and
this is so just if the cells of the one subtree can be matched with those of the other so that all links agree. The
links list the children of every cell, so a snapshot fixes each ring and whether it is closed.
-/

namespace RingTape

set_option autoImplicit false

/-- Names that occur once can be replaced by any others, one for one. -/
theorem exists_map_eq {ids others : List CellId} (once : ids.Nodup) (long : ids.length = others.length) :
    ∃ image : CellId → CellId, ids.map image = others := by
  induction ids generalizing others with
  | nil => exact ⟨id, (List.eq_nil_of_length_eq_zero long.symm).symm⟩
  | cons first rest induction =>
      cases others with
      | nil => cases long
      | cons other others =>
          obtain ⟨absent, restOnce⟩ := List.nodup_cons.mp once
          obtain ⟨image, same⟩ := induction restOnce (Nat.succ.inj long)
          have apart : rest.map (Function.update image first other) = rest.map image := by
            refine List.map_congr_left fun name among => Function.update_of_ne ?_ _ _
            rintro rfl
            exact absent among
          refine ⟨Function.update image first other, ?_⟩
          rw [List.map_cons, Function.update_self, apart, same]

namespace Ring

variable {α β : Type}

theorem placeAfter?_map (value : Num) (change : α → β) (ring : Ring α) (place : Nat) :
    (ring.map change).placeAfter? value place = ring.placeAfter? value place := by
  simp only [placeAfter?, size_map, isClosed_map]

theorem placeBefore?_map (value : Num) (change : α → β) (ring : Ring α) (place : Nat) :
    (ring.map change).placeBefore? value place = ring.placeBefore? value place := by
  simp only [placeBefore?, size_map, isClosed_map]

end Ring

namespace Cell

mutual

/-- The same tree in other slots. -/
def rename (image : CellId → CellId) : Cell → Cell
  | ⟨id, value, ⟨forward, backward⟩⟩ => ⟨image id, value, ⟨renameAll image forward, renameAll image backward⟩⟩

def renameAll (image : CellId → CellId) : List Cell → List Cell
  | [] => []
  | cell :: rest => cell.rename image :: renameAll image rest

end

variable (image : CellId → CellId)

theorem renameAll_eq (cells : List Cell) : renameAll image cells = cells.map (rename image) := by
  induction cells with
  | nil => rfl
  | cons cell rest induction => rw [renameAll, induction, List.map_cons]

theorem rename_eq (cell : Cell) :
    cell.rename image = ⟨image cell.id, cell.value, cell.ring.map (rename image)⟩ := by
  rcases cell with ⟨id, value, ⟨forward, backward⟩⟩
  rw [rename, renameAll_eq, renameAll_eq, Ring.map]

@[simp]
theorem id_rename (cell : Cell) : (cell.rename image).id = image cell.id := by
  rw [rename_eq]

@[simp]
theorem value_rename (cell : Cell) : (cell.rename image).value = cell.value := by
  rw [rename_eq]

@[simp]
theorem ring_rename (cell : Cell) : (cell.rename image).ring = cell.ring.map (rename image) := by
  rw [rename_eq]

theorem map_id_rename (cells : List Cell) : (cells.map (rename image)).map Cell.id = (cells.map Cell.id).map image := by
  rw [List.map_map, List.map_map]
  exact List.map_congr_left fun cell _ => id_rename image cell

theorem nodes_rename (cell : Cell) : (cell.rename image).nodes = cell.nodes.map (rename image) := by
  induction cell using treeInduction with
  | step cell induction =>
      rw [nodes_eq, nodes_eq cell, List.map_cons, ring_rename, Ring.members_map, List.flatMap_map, List.map_flatMap]
      exact congrArg _ (List.flatMap_congr induction)

theorem ids_rename (cell : Cell) : (cell.rename image).ids = cell.ids.map image := by
  rw [ids, ids, nodes_rename, map_id_rename]

theorem snapshot_eq (cell : Cell) :
    cell.snapshot = ⟨cell.value, Int64.ofNat cell.ring.size, cell.ring.forward.map snapshot,
      cell.ring.backward.map snapshot⟩ := by
  rcases cell with ⟨id, value, ⟨forward, backward⟩⟩
  rw [snapshot, forestSnapshot_eq, forestSnapshot_eq, Ring.size]

theorem snapshot_rename (cell : Cell) : (cell.rename image).snapshot = cell.snapshot := by
  induction cell using treeInduction with
  | step cell induction =>
      have ahead : (cell.ring.forward.map (rename image)).map snapshot = cell.ring.forward.map snapshot := by
        rw [List.map_map]
        exact List.map_congr_left fun child among => induction child (List.mem_append_left _ among)
      have behind : (cell.ring.backward.map (rename image)).map snapshot = cell.ring.backward.map snapshot := by
        rw [List.map_map]
        exact List.map_congr_left fun child among => induction child (List.mem_append_right _ among)
      rw [snapshot_eq, snapshot_eq cell, value_rename, ring_rename, Ring.size_map, Ring.map, ahead, behind]

theorem length_ids_of_snapshot {cell other : Cell} (same : cell.snapshot = other.snapshot) :
    cell.ids.length = other.ids.length := by
  have lengths := congrArg List.length (faces_of_snapshot cell other same)
  rw [List.length_map, List.length_map] at lengths
  rw [ids, ids, List.length_map, List.length_map, lengths]

variable {image}

/-- Lists of cells of the same shapes are the same in other slots, if this is so of their members. -/
theorem map_rename_of_snapshots {cells others : List Cell}
    (each : ∀ cell ∈ cells, ∀ other : Cell, cell.snapshot = other.snapshot → cell.ids.map image = other.ids →
      cell.rename image = other)
    (same : cells.map snapshot = others.map snapshot) (named : (forestIds cells).map image = forestIds others) :
    cells.map (rename image) = others := by
  induction cells generalizing others with
  | nil => rw [List.map_nil, List.map_eq_nil_iff.mp same.symm]
  | cons cell rest induction =>
      cases others with
      | nil => cases same
      | cons other others =>
          rw [List.map_cons, List.map_cons, List.cons.injEq] at same
          rw [forestIds_cons, forestIds_cons, List.map_append] at named
          have long : (cell.ids.map image).length = other.ids.length := by
            rw [List.length_map, length_ids_of_snapshot same.1]
          obtain ⟨own, further⟩ := List.append_inj named long
          rw [List.map_cons, each cell List.mem_cons_self other same.1 own,
            induction (fun member among => each member (List.mem_cons_of_mem _ among)) same.2 further]

/-- A cell of the same shape is the same in other slots. -/
theorem rename_of_snapshot {cell other : Cell} (same : cell.snapshot = other.snapshot)
    (named : cell.ids.map image = other.ids) : cell.rename image = other := by
  induction cell using treeInduction generalizing other with
  | step cell induction =>
      rw [snapshot_eq, snapshot_eq other, Snapshot.mk.injEq] at same
      obtain ⟨value, _, ahead, behind⟩ := same
      rw [ids_eq, ids_eq other, List.map_cons, List.cons.injEq] at named
      have shapes : cell.ring.members.map snapshot = other.ring.members.map snapshot := by
        rw [Ring.members, Ring.members, List.map_append, List.map_append, ahead, behind]
      have members := map_rename_of_snapshots
        (fun child among other same named => induction child among same named) shapes named.2
      rw [Ring.members, Ring.members, List.map_append] at members
      have long : (cell.ring.forward.map (rename image)).length = other.ring.forward.length := by
        have lengths := congrArg List.length ahead
        rw [List.length_map, List.length_map] at lengths
        rw [List.length_map, lengths]
      obtain ⟨forward, backward⟩ := List.append_inj members long
      rw [rename_eq, named.1, value, Ring.map, forward, backward]
      exact mk_fields other

/-- Snapshots are the same just if the trees are the same in other slots. -/
theorem snapshot_eq_iff_rename {cell other : Cell} (once : cell.ids.Nodup) :
    cell.snapshot = other.snapshot ↔ ∃ image, cell.rename image = other := by
  constructor
  · intro same
    obtain ⟨image, named⟩ := exists_map_eq once (length_ids_of_snapshot same)
    exact ⟨image, rename_of_snapshot same named⟩
  · rintro ⟨image, rfl⟩
    exact (snapshot_rename image cell).symm

theorem exists_parent {top node : Cell} (under : node ∈ top.nodes) (other : node ≠ top) :
    ∃ parent ∈ top.nodes, node ∈ parent.ring.members := by
  have whole : forestNodes [top] = top.nodes := List.append_nil _
  rw [← whole] at under ⊢
  exact (top_or_child [top] node under).resolve_left fun isTop => other (List.mem_singleton.mp isTop)

/-- Below the top of a tree no cell is the top. -/
theorem id_ne_of_member {top node child : Cell} (once : top.ids.Nodup) (under : node ∈ top.nodes)
    (member : child ∈ node.ring.members) : child.id ≠ top.id := by
  intro same
  rw [ids_eq, List.nodup_cons] at once
  refine once.1 ((mem_forestIds_iff_mem_ids _ _).mpr ?_)
  rw [nodes_eq, List.mem_cons, List.mem_flatMap] at under
  rcases under with rfl | ⟨lower, ofTop, below⟩
  · exact ⟨child, member, same ▸ child.id_mem_ids⟩
  · have inside := nodes_subset lower node below child
      (mem_nodes_of_member node child child member (mem_nodes_self child))
    exact ⟨lower, ofTop, (mem_ids _ _).mpr ⟨child, inside, same⟩⟩

end Cell

namespace Store

section Walks

variable {store : Store} {anchor cell parent : CellId}

theorem ForwardWalk.mem_self {cells : List CellId} {closed : Bool} (walk : ForwardWalk store anchor cell cells closed) :
    cell ∈ cells := by
  cases walk <;> exact List.mem_cons_self

theorem ForwardWalk.unique {cells others : List CellId} {closed closed' : Bool}
    (walk : ForwardWalk store anchor cell cells closed) (other : ForwardWalk store anchor cell others closed') :
    cells = others ∧ closed = closed' := by
  induction walk generalizing others with
  | free stop =>
      cases other with
      | free _ => exact ⟨rfl, rfl⟩
      | wrap back => cases stop.symm.trans back
      | step onward _ _ => cases stop.symm.trans onward
  | wrap back =>
      cases other with
      | free stop => cases stop.symm.trans back
      | wrap _ => exact ⟨rfl, rfl⟩
      | step onward different _ => exact absurd (Option.some.inj (onward.symm.trans back)) different
  | step onward different _ induction =>
      cases other with
      | free stop => cases stop.symm.trans onward
      | wrap back => exact absurd (Option.some.inj (onward.symm.trans back)) different
      | step onward' _ further =>
          cases onward.symm.trans onward'
          obtain ⟨rfl, rfl⟩ := induction further
          exact ⟨rfl, rfl⟩

theorem BackwardWalk.unique {cells others : List CellId} (walk : BackwardWalk store cell cells)
    (other : BackwardWalk store cell others) : cells = others := by
  induction walk generalizing others with
  | free stop =>
      cases other with
      | free _ => rfl
      | step onward _ => cases stop.symm.trans onward
  | step onward _ induction =>
      cases other with
      | free stop => cases stop.symm.trans onward
      | step onward' further =>
          cases onward.symm.trans onward'
          rw [induction further]

/-- The links list the children of a cell in one way only. -/
theorem Lists.unique {forward backward forward' backward' : List CellId} {closed closed' : Bool}
    (lists : Lists store parent forward backward closed) (others : Lists store parent forward' backward' closed') :
    forward = forward' ∧ backward = backward' ∧ closed = closed' := by
  cases lists with
  | childless none =>
      cases others with
      | childless _ => exact ⟨rfl, rfl, rfl⟩
      | ring anchored _ => cases none.symm.trans anchored
      | arc anchored _ _ => cases none.symm.trans anchored
  | ring anchored walk =>
      cases others with
      | childless none => cases none.symm.trans anchored
      | ring anchored' walk' =>
          cases anchored.symm.trans anchored'
          exact ⟨(walk.unique walk').1, rfl, rfl⟩
      | arc anchored' walk' _ =>
          cases anchored.symm.trans anchored'
          cases (walk.unique walk').2
  | arc anchored walk back =>
      cases others with
      | childless none => cases none.symm.trans anchored
      | ring anchored' walk' =>
          cases anchored.symm.trans anchored'
          cases (walk.unique walk').2
      | arc anchored' walk' back' =>
          cases anchored.symm.trans anchored'
          exact ⟨(walk.unique walk').1, back.unique back', rfl⟩

end Walks

section Transport

variable {first second : Store} {image : CellId → CellId}

theorem ForwardWalk.carry {within : CellId → Prop} {anchor cell : CellId} {cells : List CellId} {closed : Bool}
    (walk : ForwardWalk first anchor cell cells closed) (inside : ∀ id ∈ cells, within id) (anchored : within anchor)
    (linked : ∀ id, within id → second.nextLink (image id) = (first.nextLink id).map image)
    (apart : ∀ id other, within id → within other → image id = image other → id = other) :
    ForwardWalk second (image anchor) (image cell) (cells.map image) closed := by
  induction walk with
  | free stop =>
      refine .free ?_
      rw [linked _ (inside _ List.mem_cons_self), stop, Option.map_none]
  | wrap back =>
      refine .wrap ?_
      rw [linked _ (inside _ List.mem_cons_self), back, Option.map_some]
  | @step cell following rest closed onward different further induction =>
      have later : ∀ id ∈ rest, within id := fun id among => inside id (List.mem_cons_of_mem _ among)
      refine .step ?_ ?_ (induction later)
      · rw [linked _ (inside _ List.mem_cons_self), onward, Option.map_some]
      · exact fun same => different (apart _ _ (later _ further.mem_self) anchored same)

theorem BackwardWalk.carry {within : CellId → Prop} {cell : CellId} {cells : List CellId}
    (walk : BackwardWalk first cell cells) (here : within cell) (inside : ∀ id ∈ cells, within id)
    (linked : ∀ id, within id → second.prevLink (image id) = (first.prevLink id).map image) :
    BackwardWalk second (image cell) (cells.map image) := by
  induction walk with
  | free stop =>
      refine .free ?_
      rw [linked _ here, stop, Option.map_none]
  | step onward _ induction =>
      refine .step ?_ (induction (inside _ List.mem_cons_self) fun id among => inside id (List.mem_cons_of_mem _ among))
      rw [linked _ here, onward, Option.map_some]

/-- Where links agree, children are listed alike. -/
theorem Lists.carry (within : CellId → Prop) {parent : CellId} {forward backward : List CellId} {closed : Bool}
    (lists : Lists first parent forward backward closed) (inside : ∀ id ∈ forward ++ backward, within id)
    (entered : second.anchorLink (image parent) = (first.anchorLink parent).map image)
    (onward : ∀ id, within id → second.nextLink (image id) = (first.nextLink id).map image)
    (back : ∀ id, within id → second.prevLink (image id) = (first.prevLink id).map image)
    (apart : ∀ id other, within id → within other → image id = image other → id = other) :
    Lists second (image parent) (forward.map image) (backward.map image) closed := by
  cases lists with
  | childless none =>
      refine .childless ?_
      rw [entered, none, Option.map_none]
  | @ring anchor forward anchored walk =>
      have ahead : ∀ id ∈ forward, within id := fun id among => inside id (List.mem_append_left _ among)
      refine .ring ?_ (walk.carry ahead (ahead _ walk.mem_self) onward apart)
      rw [entered, anchored, Option.map_some]
  | @arc anchor forward backward anchored walk behind =>
      have ahead : ∀ id ∈ forward, within id := fun id among => inside id (List.mem_append_left _ among)
      refine .arc ?_ (walk.carry ahead (ahead _ walk.mem_self) onward apart)
        (behind.carry (ahead _ walk.mem_self) (fun id among => inside id (List.mem_append_right _ among)) back)
      rw [entered, anchored, Option.map_some]

end Transport

/--
A matching of the cells of one subtree with those of another, from top to top, that keeps the fields of every cell.
Of the tops, the fields that tie them to their own rings are not compared.
-/
structure Isomorphism (first : Store) (top : CellId) (second : Store) (other : CellId) (image : CellId → CellId) :
    Prop where
  bijective : Set.BijOn image {id | id ∈ first.branch top} {id | id ∈ second.branch other}
  tops : image top = other
  value : ∀ id ∈ first.branch top, second.value? (image id) = first.value? id
  instantiated : ∀ id ∈ first.branch top,
    (second.cell? (image id)).map Cell.instantiated = (first.cell? id).map Cell.instantiated
  anchor : ∀ id ∈ first.branch top, second.anchorLink (image id) = (first.anchorLink id).map image
  parent : ∀ id ∈ first.branch top, id ≠ top → second.parentLink (image id) = (first.parentLink id).map image
  next : ∀ id ∈ first.branch top, id ≠ top → second.nextLink (image id) = (first.nextLink id).map image
  prev : ∀ id ∈ first.branch top, id ≠ top → second.prevLink (image id) = (first.prevLink id).map image

theorem branch_of_mem {store : Store} (distinct : store.ids.Nodup) {cell : Cell} (inside : cell ∈ store.nodes) :
    store.branch cell.id = cell.ids := by
  rw [branch, cell?_of_mem distinct inside, Option.map_some, Option.getD_some]

section Sound

variable {first second : Store} (sound : first.Sound) (sound' : second.Sound) {image : CellId → CellId}

include sound sound'

/-- A child of a renamed cell has the renamed links. -/
theorem links_rename {parent node : Cell} (inside : parent ∈ first.nodes) (renamed : parent.rename image ∈ second.nodes)
    (member : node ∈ parent.ring.members) :
    second.parentLink (image node.id) = (first.parentLink node.id).map image ∧
      second.nextLink (image node.id) = (first.nextLink node.id).map image ∧
        second.prevLink (image node.id) = (first.prevLink node.id).map image := by
  obtain ⟨place, there⟩ := List.getElem?_of_mem ((Ring.mem_members_iff _ _).mp member)
  have thereRenamed : (parent.rename image).ring.line[place]? = some (node.rename image) := by
    rw [Cell.ring_rename, Ring.line_map, List.getElem?_map, there, Option.map_some]
  have named (index : Nat) : (parent.ring.map (Cell.rename image)).line[index]?.map Cell.id =
      (parent.ring.line[index]?.map Cell.id).map image := by
    rw [Ring.line_map, List.getElem?_map, Option.map_map, Option.map_map]
    exact congrArg (Option.map · _) (funext (Cell.id_rename image))
  rw [← Cell.id_rename image node]
  refine ⟨?_, ?_, ?_⟩
  · rw [parentLink, parentLink, parent?_of_line sound' renamed thereRenamed, parent?_of_line sound inside there,
      Option.map_some, Option.map_some, Option.map_some, Cell.id_rename]
  · rw [nextLink_of_line sound' renamed thereRenamed, nextLink_of_line sound inside there, Option.map_bind]
    simp only [named, Cell.ring_rename, Cell.value_rename, Ring.placeAfter?_map]
    rfl
  · rw [prevLink_of_line sound' renamed thereRenamed, prevLink_of_line sound inside there, Option.map_bind]
    simp only [named, Cell.ring_rename, Cell.value_rename, Ring.placeBefore?_map]
    rfl

/-- A tree in other slots is matched with the tree that it was. -/
theorem isomorphism_of_rename {cell : Cell} (inside : cell ∈ first.nodes) (renamed : cell.rename image ∈ second.nodes) :
    Isomorphism first cell.id second (image cell.id) image := by
  have branch := branch_of_mem sound.distinct inside
  have branch' : second.branch (image cell.id) = cell.ids.map image := by
    rw [← Cell.id_rename image cell, branch_of_mem sound'.distinct renamed, Cell.ids_rename]
  have once : (cell.ids.map image).Nodup := by
    rw [← Cell.ids_rename]
    exact Cell.ids_nodup sound'.distinct renamed
  have nodeAt (id : CellId) (below : id ∈ first.branch cell.id) : ∃ node ∈ cell.nodes, node.id = id :=
    (Cell.mem_ids _ _).mp (branch ▸ below)
  have here (node : Cell) (under : node ∈ cell.nodes) : node ∈ first.nodes :=
    Cell.forestNodes_subset _ _ inside _ under
  have there (node : Cell) (under : node ∈ cell.nodes) : node.rename image ∈ second.nodes := by
    refine Cell.forestNodes_subset _ _ renamed _ ?_
    rw [Cell.nodes_rename]
    exact List.mem_map_of_mem under
  have found (node : Cell) (under : node ∈ cell.nodes) :
      first.cell? node.id = some node ∧ second.cell? (image node.id) = some (node.rename image) := by
    have again := cell?_of_mem sound'.distinct (there node under)
    rw [Cell.id_rename] at again
    exact ⟨cell?_of_mem sound.distinct (here node under), again⟩
  have links (id : CellId) (below : id ∈ first.branch cell.id) (other : id ≠ cell.id) :
      second.parentLink (image id) = (first.parentLink id).map image ∧
        second.nextLink (image id) = (first.nextLink id).map image ∧
          second.prevLink (image id) = (first.prevLink id).map image := by
    obtain ⟨node, under, rfl⟩ := nodeAt id below
    obtain ⟨parent, above, member⟩ := Cell.exists_parent under fun same => other (congrArg Cell.id same)
    exact links_rename sound sound' (here parent above) (there parent above) member
  refine ⟨?_, rfl, ?_, ?_, ?_, fun id below other => (links id below other).1,
    fun id below other => (links id below other).2.1, fun id below other => (links id below other).2.2⟩
  · rw [branch, branch']
    refine ⟨fun id below => List.mem_map_of_mem below, ?_, fun id below => List.mem_map.mp below⟩
    exact fun id below other below' same => List.inj_on_of_nodup_map once below below' same
  · intro id below
    obtain ⟨node, under, rfl⟩ := nodeAt id below
    rw [value?, value?, (found node under).1, (found node under).2, Option.map_some, Option.map_some,
      Cell.value_rename]
  · intro id below
    obtain ⟨node, under, rfl⟩ := nodeAt id below
    rw [(found node under).1, (found node under).2, Option.map_some, Option.map_some, Cell.instantiated,
      Cell.instantiated, Cell.ring_rename, Ring.size_map]
  · intro id below
    obtain ⟨node, under, rfl⟩ := nodeAt id below
    rw [anchorLink, anchorLink, (found node under).1, (found node under).2, Option.bind_some, Option.bind_some,
      Cell.ring_rename, Ring.map, List.head?_map, Option.map_map, Option.map_map]
    exact congrArg (Option.map · _) (funext (Cell.id_rename image))

omit sound' in
theorem mem_branch_of_node {top node : Cell} (inside : top ∈ first.nodes) (under : node ∈ top.nodes) :
    node.id ∈ first.branch top.id := by
  rw [branch_of_mem sound.distinct inside]
  exact (Cell.mem_ids _ _).mpr ⟨node, under, rfl⟩

omit sound' in
/-- The children of the cells of a subtree are in it, and are not its top. -/
theorem children_within {top node : Cell} (inside : top ∈ first.nodes) (under : node ∈ top.nodes) :
    ∀ id ∈ node.ring.members.map Cell.id, id ∈ first.branch top.id ∧ id ≠ top.id := by
  intro id among
  obtain ⟨child, member, rfl⟩ := List.mem_map.mp among
  refine ⟨?_, Cell.id_ne_of_member (Cell.ids_nodup sound.distinct inside) under member⟩
  rw [branch_of_mem sound.distinct inside]
  exact Cell.mem_ids_of_entry under ((node.mem_members_entry _).mpr among)

omit sound' in
/-- Matched cells have their children listed alike. -/
theorem Isomorphism.lists {top node : Cell} {other : CellId} (matched : Isomorphism first top.id second other image)
    (inside : top ∈ first.nodes) (under : node ∈ top.nodes) {forward backward : List CellId} {closed : Bool}
    (lists : Lists first node.id forward backward closed) :
    Lists second (image node.id) (forward.map image) (backward.map image) closed := by
  have here := mem_branch_of_node sound inside under
  obtain ⟨rfl, rfl, rfl⟩ := lists.unique (lists_of_sound sound (Cell.forestNodes_subset _ _ inside _ under))
  refine lists.carry (fun id => id ∈ first.branch top.id ∧ id ≠ top.id) ?_ (matched.anchor _ here)
    (fun id below => matched.next id below.1 below.2) (fun id below => matched.prev id below.1 below.2) ?_
  · rw [← List.map_append]
    exact children_within sound inside under
  · exact fun id other below below' same => matched.bijective.injOn below.1 below'.1 same

theorem Isomorphism.exists_partner {top node : Cell} {other : CellId}
    (matched : Isomorphism first top.id second other image) (inside : top ∈ first.nodes) (under : node ∈ top.nodes) :
    ∃ partner ∈ second.nodes, partner.id = image node.id ∧ partner.value = node.value := by
  have here := mem_branch_of_node sound inside under
  have present := Cell.forestNodes_subset _ _ inside _ under
  obtain ⟨root, rootInside, _, rooted⟩ := exists_top_of_mem_branch (matched.bijective.mapsTo here)
  have target : image node.id ∈ root.ids := by
    rw [← rooted]
    exact matched.bijective.mapsTo here
  obtain ⟨partner, below, named⟩ := (Cell.mem_ids _ _).mp target
  have partnerInside : partner ∈ second.nodes := Cell.forestNodes_subset _ _ rootInside _ below
  refine ⟨partner, partnerInside, named, ?_⟩
  have same := matched.value node.id here
  rw [← named, value?, value?, cell?_of_mem sound'.distinct partnerInside, cell?_of_mem sound.distinct present] at same
  exact Option.some.inj same

/-- What is matched with a cell is that cell in other slots. -/
theorem Isomorphism.rename_mem {top : Cell} {other : CellId} (matched : Isomorphism first top.id second other image)
    (inside : top ∈ first.nodes) (node : Cell) (under : node ∈ top.nodes) : node.rename image ∈ second.nodes := by
  induction node using Cell.treeInduction with
  | step node induction =>
      have children (child : Cell) (member : child ∈ node.ring.members) : child.rename image ∈ second.nodes :=
        induction child member (Cell.nodes_subset top node under child
          (Cell.mem_nodes_of_member node child child member (Cell.mem_nodes_self child)))
      obtain ⟨partner, partnerInside, named, value⟩ := matched.exists_partner sound sound' inside under
      -- The links list the children of the partner in one way, and matching takes those of the cell to them.
      have listed := matched.lists sound inside under
        (lists_of_sound sound (Cell.forestNodes_subset _ _ inside _ under))
      rw [← named] at listed
      obtain ⟨ahead, behind, _⟩ := listed.unique (lists_of_sound sound' partnerInside)
      have names : partner.ring.map Cell.id = (node.ring.map (Cell.rename image)).map Cell.id := by
        rw [Ring.map, Ring.map, Ring.map, Cell.map_id_rename, Cell.map_id_rename, ahead, behind]
      have ring : partner.ring = node.ring.map (Cell.rename image) := by
        refine Ring.eq_of_map_eq ?_ names
        intro one oneIn two twoIn same
        rw [Ring.members_map] at twoIn
        obtain ⟨child, member, rfl⟩ := List.mem_map.mp twoIn
        exact node_unique sound'.distinct (member_mem_nodes partnerInside oneIn) (children child member) same
      have same : node.rename image = partner := by
        rw [Cell.rename_eq, ← named, ← value, ← ring]
        exact Cell.mk_fields partner
      rw [same]
      exact partnerInside

end Sound

/--
Live cells have the same snapshot just if their subtrees can be matched so that all fields agree. Every matching then
takes the list of the children of a cell to that of its partner, and a closed ring to a closed ring.
-/
theorem snapshot_is_isomorphism_type {first second : Store} (formed : first.WellFormed) (formed' : second.WellFormed)
    {top other : CellId} (live : first.contains top = true) (live' : second.contains other = true) :
    ∃ shape shape', Store.snapshot top first = .ok shape first ∧ Store.snapshot other second = .ok shape' second ∧
      (shape = shape' ↔ ∃ image, Isomorphism first top second other image) ∧
      ∀ image, Isomorphism first top second other image → ∀ id ∈ first.branch top, ∀ forward backward closed,
        Lists first id forward backward closed →
          Lists second (image id) (forward.map image) (backward.map image) closed := by
  have sound := (wellFormed_iff_sound _).mp formed
  have sound' := (wellFormed_iff_sound _).mp formed'
  obtain ⟨cell, inside, rfl⟩ := (Cell.mem_forestIds _ _).mp ((contains_iff top).mp live)
  obtain ⟨partner, inside', rfl⟩ := (Cell.mem_forestIds _ _).mp ((contains_iff other).mp live')
  refine ⟨cell.snapshot, partner.snapshot, run_bind_ok (run_cell_of_some (cell?_of_mem sound.distinct inside)),
    run_bind_ok (run_cell_of_some (cell?_of_mem sound'.distinct inside')), ⟨?_, ?_⟩, ?_⟩
  · intro same
    obtain ⟨image, rfl⟩ := (Cell.snapshot_eq_iff_rename (Cell.ids_nodup sound.distinct inside)).mp same
    rw [Cell.id_rename]
    exact ⟨image, isomorphism_of_rename sound sound' inside inside'⟩
  · rintro ⟨image, matched⟩
    have renamed := matched.rename_mem sound sound' inside cell cell.mem_nodes_self
    have same := node_unique sound'.distinct renamed inside' ((Cell.id_rename image cell).trans matched.tops)
    rw [← same, Cell.snapshot_rename]
  · intro image matched id below forward backward closed lists
    rw [branch_of_mem sound.distinct inside] at below
    obtain ⟨node, under, rfl⟩ := (Cell.mem_ids _ _).mp below
    exact matched.lists sound inside under lists

/-- Two children of four, in other slots of two stores, and before the second a cell of its own. -/
def arcStores : Nat → Store :=
  Deed.performAll (fun _ => Store.empty) [⟨0, .alloc 4⟩, ⟨0, .child ⟨0⟩⟩, ⟨0, .prev ⟨1⟩⟩, ⟨1, .alloc 7⟩, ⟨1, .alloc 4⟩,
    ⟨1, .child ⟨1⟩⟩, ⟨1, .prev ⟨2⟩⟩]

theorem snapshot_is_isomorphism_type_arcStores :
    (arcStores 0).WellFormed ∧ (arcStores 1).WellFormed ∧
      (∃ image, Isomorphism (arcStores 0) ⟨0⟩ (arcStores 1) ⟨1⟩ image) ∧
        ¬ ∃ image, Isomorphism (arcStores 0) ⟨0⟩ (arcStores 1) ⟨0⟩ image := by
  have formed (number : Nat) : (arcStores number).WellFormed :=
    (wellFormed_iff_sound _).mpr (Deed.sound_performAll (fun _ => sound_empty) _ (by decide +kernel) number)
  have live : (arcStores 0).contains ⟨0⟩ = true := by decide +kernel
  have live' : (arcStores 1).contains ⟨1⟩ = true := by decide +kernel
  have leafLive : (arcStores 1).contains ⟨0⟩ = true := by decide +kernel
  refine ⟨formed 0, formed 1, ?_, ?_⟩
  · obtain ⟨shape, shape', ran, ran', law, _⟩ := snapshot_is_isomorphism_type (formed 0) (formed 1) live live'
    refine law.mp ?_
    have left : Store.snapshot ⟨0⟩ (arcStores 0) = .ok ⟨4, 2, [.leaf 0], [.leaf 0]⟩ (arcStores 0) := by rfl
    have right : Store.snapshot ⟨1⟩ (arcStores 1) = .ok ⟨4, 2, [.leaf 0], [.leaf 0]⟩ (arcStores 1) := by rfl
    cases left.symm.trans ran
    cases right.symm.trans ran'
    rfl
  · obtain ⟨shape, shape', ran, ran', law, _⟩ := snapshot_is_isomorphism_type (formed 0) (formed 1) live leafLive
    rw [← law]
    have left : Store.snapshot ⟨0⟩ (arcStores 0) = .ok ⟨4, 2, [.leaf 0], [.leaf 0]⟩ (arcStores 0) := by rfl
    have right : Store.snapshot ⟨0⟩ (arcStores 1) = .ok (.leaf 7) (arcStores 1) := by rfl
    cases left.symm.trans ran
    cases right.symm.trans ran'
    intro same
    cases same

end Store

end RingTape
