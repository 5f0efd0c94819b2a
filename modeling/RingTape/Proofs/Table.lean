import RingTape.Proofs.Content

/-!
A store as a table that gives for each slot the value of its cell and the slots of its children. All fields of a
cell are read off two entries of the table, its own and that of its parent, and a subtree is read off the entries of
its cells. So what an operation leaves alone is told by the entries that it leaves alone.
-/

namespace RingTape

set_option autoImplicit false

namespace Ring

variable {α β : Type}

@[simp]
theorem isClosed_map (value : Num) (change : α → β) (ring : Ring α) :
    (ring.map change).isClosed value = ring.isClosed value := by
  simp [isClosed, isFull, map, size]

theorem after?_map (value : Num) (change : α → β) (ring : Ring α) (place : Nat) :
    (ring.map change).after? value place = (ring.after? value place).map change := by
  unfold after?
  split_ifs <;> simp_all

theorem before?_map (value : Num) (change : α → β) (ring : Ring α) (place : Nat) :
    (ring.map change).before? value place = (ring.before? value place).map change := by
  unfold before?
  split_ifs <;> simp_all

/-- A ring is known by the names of its members, if no two of the cells in question share a name. -/
theorem eq_of_map_eq {change : α → β} {left right : Ring α}
    (unique : ∀ first ∈ left.members, ∀ second ∈ right.members, change first = change second → first = second)
    (same : left.map change = right.map change) : left = right := by
  have lists (first second : List α) (firstIn : ∀ member ∈ first, member ∈ left.members)
      (secondIn : ∀ member ∈ second, member ∈ right.members) (equal : first.map change = second.map change) :
      first = second := by
    induction first generalizing second with
    | nil => simpa using equal.symm
    | cons member rest induction =>
        cases second with
        | nil => simp at equal
        | cons other others =>
            rw [List.map_cons, List.map_cons, List.cons.injEq] at equal
            rw [unique member (firstIn member List.mem_cons_self) other (secondIn other List.mem_cons_self) equal.1,
              induction others (fun next among => firstIn next (List.mem_cons_of_mem _ among))
                (fun next among => secondIn next (List.mem_cons_of_mem _ among)) equal.2]
  rcases left with ⟨forward, backward⟩
  rcases right with ⟨otherForward, otherBackward⟩
  simp only [map, mk.injEq] at same
  rw [mk.injEq]
  exact ⟨lists _ _ (fun _ => List.mem_append_left _) (fun _ => List.mem_append_left _) same.1,
    lists _ _ (fun _ => List.mem_append_right _) (fun _ => List.mem_append_right _) same.2⟩

end Ring

/-- What a slot holds: the value of its cell and the slots of its children. -/
structure Entry where
  value : Num
  ring : Ring CellId
deriving DecidableEq, Repr

namespace Entry

def next? (entry : Entry) (id : CellId) : Option CellId :=
  entry.ring.after? entry.value (entry.ring.line.findIdx fun member => member = id)

def prev? (entry : Entry) (id : CellId) : Option CellId :=
  entry.ring.before? entry.value (entry.ring.line.findIdx fun member => member = id)

end Entry

namespace Cell

def entry (cell : Cell) : Entry :=
  ⟨cell.value, cell.ring.map Cell.id⟩

theorem mem_members_entry (cell : Cell) (id : CellId) :
    id ∈ cell.entry.ring.members ↔ id ∈ cell.ring.members.map Cell.id := by
  rw [entry, Ring.members_map]

theorem findIdx_entry (cell : Cell) (id : CellId) :
    cell.entry.ring.line.findIdx (fun member => member = id) = cell.placeOf id := by
  rw [entry, Ring.line_map, List.findIdx_map]
  rfl

theorem next?_entry (cell : Cell) (id : CellId) :
    cell.entry.next? id = (cell.ring.after? cell.value (cell.placeOf id)).map Cell.id := by
  rw [Entry.next?, findIdx_entry, entry, Ring.after?_map]

theorem prev?_entry (cell : Cell) (id : CellId) :
    cell.entry.prev? id = (cell.ring.before? cell.value (cell.placeOf id)).map Cell.id := by
  rw [Entry.prev?, findIdx_entry, entry, Ring.before?_map]

theorem entry_amend {target : CellId} {change : Cell → Cell} {cell : Cell} (other : cell.id ≠ target)
    (keeps : ∀ node : Cell, (change node).id = node.id) : (cell.amend target change).entry = cell.entry := by
  have same : (cell.ring.map (amend target change)).map Cell.id = cell.ring.map Cell.id := by
    have names : Cell.id ∘ amend target change = Cell.id := funext fun node => id_amend target change node keeps
    simp only [Ring.map, List.map_map, names]
  rw [amend_of_ne target change cell other, entry, entry, same]

theorem mem_ids_of_entry {top node : Cell} (under : node ∈ top.nodes) {child : CellId}
    (ofRing : child ∈ node.entry.ring.members) : child ∈ top.ids := by
  obtain ⟨member, among, rfl⟩ := List.mem_map.mp ((node.mem_members_entry child).mp ofRing)
  exact (mem_ids _ _).mpr ⟨member, nodes_subset top node under member
    (mem_nodes_of_member node member member among (mem_nodes_self member)), rfl⟩

theorem exists_member_of_mem_ids {host : Cell} {id : CellId} (below : id ∈ host.ids) (other : id ≠ host.id) :
    ∃ member ∈ host.ring.members, id ∈ member.ids := by
  rw [ids_eq, List.mem_cons] at below
  exact (mem_forestIds_iff_mem_ids _ _).mp (below.resolve_left other)

/-- Different trees of a forest have no slot in common. -/
theorem tree_unique {cells : List Cell} (once : (forestIds cells).Nodup) {first second : Cell}
    (firstIn : first ∈ cells) (secondIn : second ∈ cells) {id : CellId} (ofFirst : id ∈ first.ids)
    (ofSecond : id ∈ second.ids) : first = second := by
  induction cells with
  | nil => simp at firstIn
  | cons cell rest induction =>
      rw [forestIds_cons, List.nodup_append] at once
      have apart (other : Cell) (later : other ∈ rest) (here : id ∈ cell.ids) : id ∉ other.ids := by
        intro there
        exact once.2.2 id here id ((mem_forestIds_iff_mem_ids _ _).mpr ⟨other, later, there⟩) rfl
      rcases List.mem_cons.mp firstIn with rfl | firstLater <;> rcases List.mem_cons.mp secondIn with rfl | secondLater
      · rfl
      · exact absurd ofSecond (apart second secondLater ofFirst)
      · exact absurd ofFirst (apart first firstLater ofSecond)
      · exact induction once.2.1 firstLater secondLater

/-- Some cell of a forest has the given slot and entry. -/
def Told (cells : List Cell) (id : CellId) (entry : Entry) : Prop :=
  ∃ node ∈ forestNodes cells, node.id = id ∧ node.entry = entry

theorem told_of_mem {cells : List Cell} {node : Cell} (inside : node ∈ forestNodes cells) :
    Told cells node.id node.entry :=
  ⟨node, inside, rfl, rfl⟩

theorem Told.mem_ids {cells : List Cell} {id : CellId} {entry : Entry} (told : Told cells id entry) :
    id ∈ forestIds cells := by
  obtain ⟨node, inside, same, _⟩ := told
  exact (mem_forestIds _ _).mpr ⟨node, inside, same⟩

theorem told_cons {cell : Cell} {rest : List Cell} {id : CellId} {entry : Entry} :
    Told (cell :: rest) id entry ↔ (∃ node ∈ cell.nodes, node.id = id ∧ node.entry = entry) ∨ Told rest id entry := by
  simp only [Told, forestNodes, List.mem_append, or_and_right, exists_or]

theorem told_member {cells : List Cell} {member : Cell} (among : member ∈ cells) {node : Cell}
    (below : node ∈ member.nodes) : Told cells node.id node.entry :=
  told_of_mem ((mem_forestNodes _ _).mpr ⟨member, among, below⟩)

/-- The table after one cell got a new value and a new ring. -/
theorem told_forestReplace {cells : List Cell} {host : Cell} (distinct : (forestIds cells).Nodup)
    (inside : host ∈ forestNodes cells) (value : Num) (ring : Ring Cell) (id : CellId) (entry : Entry) :
    Told (forestReplace host.id value ring cells) id entry ↔
      (id = host.id ∧ entry = ⟨value, ring.map Cell.id⟩) ∨ Told ring.members id entry ∨
        (Told cells id entry ∧ id ∉ host.ids) := by
  constructor
  · rintro ⟨node, member, rfl, rfl⟩
    rcases (mem_forestReplace distinct value ring node inside).mp member with
      same | ⟨child, ofRing, below⟩ | ⟨old, wasThere, outside, same⟩
    · exact Or.inl ⟨by rw [same]; rfl, by rw [same]; rfl⟩
    · exact Or.inr (Or.inl (told_member ofRing below))
    · have other : old.id ≠ host.id := fun equal => outside (equal ▸ host.id_mem_ids)
      have sameId : node.id = old.id := by
        rw [same]
        exact id_amend _ _ _ fun _ => rfl
      have sameEntry : node.entry = old.entry := by
        rw [same]
        exact entry_amend other fun _ => rfl
      rw [sameId, sameEntry]
      exact Or.inr (Or.inr ⟨told_of_mem wasThere, outside⟩)
  · rintro (⟨rfl, rfl⟩ | ⟨node, below, rfl, rfl⟩ | ⟨⟨old, wasThere, rfl, rfl⟩, outside⟩)
    · exact ⟨host.withRing value ring, (mem_forestReplace distinct value ring _ inside).mpr (Or.inl rfl), rfl, rfl⟩
    · obtain ⟨child, ofRing, under⟩ := (mem_forestNodes _ _).mp below
      exact ⟨node, (mem_forestReplace distinct value ring _ inside).mpr (Or.inr (Or.inl ⟨child, ofRing, under⟩)),
        rfl, rfl⟩
    · have other : old.id ≠ host.id := fun equal => outside (equal ▸ host.id_mem_ids)
      exact ⟨old.amend host.id (withRing value ring),
        (mem_forestReplace distinct value ring _ inside).mpr (Or.inr (Or.inr ⟨old, wasThere, outside, rfl⟩)),
        id_amend _ _ _ fun _ => rfl, entry_amend other fun _ => rfl⟩

end Cell

/-- The six fields of a cell. -/
structure Fields where
  value : Num
  instantiated : Nat
  firstChild : Option CellId
  prev : Option CellId
  next : Option CellId
  parent : Option CellId
deriving DecidableEq, Repr

namespace Store

def fields? (store : Store) (id : CellId) : Option Fields :=
  (store.cell? id).map fun cell =>
    ⟨cell.value, cell.instantiated, store.anchorLink id, store.prevLink id, store.nextLink id, store.parentLink id⟩

/-- The fields that tie a cell to its ring. -/
def kin (store : Store) (id : CellId) : Option CellId × Option CellId × Option CellId :=
  (store.prevLink id, store.nextLink id, store.parentLink id)

/-- The entry of a slot in the table of a store. -/
def Has (store : Store) (id : CellId) (entry : Entry) : Prop :=
  Cell.Told store.trees id entry

section Table

variable {store : Store} (distinct : store.ids.Nodup)

theorem mem_ids_of_below {top : Cell} (inside : top ∈ store.nodes) {id : CellId} (below : id ∈ top.ids) :
    id ∈ store.ids := by
  obtain ⟨node, under, rfl⟩ := (Cell.mem_ids _ _).mp below
  exact (Cell.mem_forestIds _ _).mpr ⟨node, Cell.forestNodes_subset _ _ inside _ under, rfl⟩

theorem exists_has {id : CellId} (live : id ∈ store.ids) : ∃ entry, store.Has id entry := by
  obtain ⟨node, inside, rfl⟩ := (Cell.mem_forestIds _ _).mp live
  exact ⟨node.entry, Cell.told_of_mem inside⟩

include distinct

theorem Has.cell? {id : CellId} {entry : Entry} (has : store.Has id entry) :
    ∃ cell, store.cell? id = some cell ∧ cell.entry = entry := by
  obtain ⟨node, inside, rfl, rfl⟩ := has
  exact ⟨node, cell?_of_mem distinct inside, rfl⟩

theorem Has.unique {id : CellId} {first second : Entry} (has : store.Has id first) (also : store.Has id second) :
    first = second := by
  obtain ⟨node, inside, rfl, rfl⟩ := has
  obtain ⟨other, otherInside, same, rfl⟩ := also
  rw [node_unique distinct otherInside inside same]

theorem Has.children {node : Cell} (inside : node ∈ store.nodes) {entry : Entry} (has : store.Has node.id entry)
    {child : CellId} (ofRing : child ∈ entry.ring.members) : child ∈ node.ring.members.map Cell.id := by
  have same := has.unique distinct (Cell.told_of_mem inside)
  rw [same] at ofRing
  exact (node.mem_members_entry child).mp ofRing

theorem Has.node {id : CellId} {entry : Entry} (has : store.Has id entry) {top : Cell} (inside : top ∈ store.nodes)
    (below : id ∈ top.ids) : ∃ node ∈ top.nodes, node.id = id ∧ node.entry = entry := by
  obtain ⟨node, present, rfl, rfl⟩ := has
  obtain ⟨other, under, same⟩ := (Cell.mem_ids _ _).mp below
  have equal := node_unique distinct (Cell.forestNodes_subset _ _ inside _ under) present same
  exact ⟨node, equal ▸ under, rfl, rfl⟩

/-- The parent of a cell below another one is that one or lies below it. -/
theorem Has.mem_ids_of_child {id child : CellId} {entry : Entry} (has : store.Has id entry)
    (ofRing : child ∈ entry.ring.members) {top : Cell} (inside : top ∈ store.nodes) (below : child ∈ top.ids)
    (other : child ≠ top.id) : id ∈ top.ids := by
  obtain ⟨node, present, rfl, rfl⟩ := has
  obtain ⟨lower, under, rfl⟩ := (Cell.mem_ids _ _).mp below
  rcases Cell.top_or_child [top] lower (by simpa [Cell.forestNodes] using under) with isTop | ⟨parent, among, member⟩
  · exact absurd (congrArg Cell.id (List.mem_singleton.mp isTop)) other
  · have parentUnder : parent ∈ top.nodes := by simpa [Cell.forestNodes] using among
    have parentInside := Cell.forestNodes_subset _ _ inside _ parentUnder
    have same := Cell.parent_unique store.trees distinct parent node parentInside present lower.id
      (List.mem_map.mpr ⟨lower, member, rfl⟩) ((node.mem_members_entry _).mp ofRing)
    exact (Cell.mem_ids _ _).mpr ⟨parent, parentUnder, congrArg Cell.id same⟩

/-- What ties a child to its ring is in the entry of its parent. -/
theorem Has.kin {id child : CellId} {entry : Entry} (has : store.Has id entry)
    (ofRing : child ∈ entry.ring.members) :
    store.kin child = (entry.prev? child, entry.next? child, some id) := by
  obtain ⟨node, inside, rfl, rfl⟩ := has
  have found := parent?_of_mem distinct inside ((node.mem_members_entry child).mp ofRing)
  rw [Store.kin, prevLink, nextLink, parentLink, found, Cell.prev?_entry, Cell.next?_entry]
  rfl

theorem parentLink_eq_some_iff_has (id child : CellId) :
    store.parentLink child = some id ↔ ∃ entry, store.Has id entry ∧ child ∈ entry.ring.members := by
  constructor
  · intro linked
    obtain ⟨parent, found, rfl⟩ := Option.map_eq_some_iff.mp linked
    obtain ⟨inside, child⟩ := mem_nodes_of_parent? found
    exact ⟨parent.entry, Cell.told_of_mem inside, (parent.mem_members_entry _).mpr child⟩
  · rintro ⟨entry, has, ofRing⟩
    exact congrArg (·.2.2) (has.kin distinct ofRing)

omit distinct in
/-- Where no entry names a cell, the cell is the top of a tree. -/
theorem kin_of_unnamed {child : CellId} (unnamed : ∀ id entry, store.Has id entry → child ∉ entry.ring.members) :
    store.kin child = (none, none, none) := by
  have none : store.parent? child = none := by
    rw [parent?_eq_none_iff]
    intro node inside present
    exact unnamed node.id node.entry (Cell.told_of_mem inside) ((node.mem_members_entry _).mpr present)
  simp [kin, prevLink, nextLink, parentLink, none]

/-- All six fields are in the entry of the cell and in what ties it to its ring. -/
theorem Has.fields? {id : CellId} {entry : Entry} (has : store.Has id entry) :
    store.fields? id = some ⟨entry.value, entry.ring.size, entry.ring.forward.head?, (store.kin id).1,
      (store.kin id).2.1, (store.kin id).2.2⟩ := by
  obtain ⟨cell, found, rfl⟩ := has.cell? distinct
  simp [Store.fields?, found, Store.kin, anchorLink, Cell.entry, Cell.instantiated, Ring.map, Ring.size]

/-- What holds of a cell and passes on to children holds of everything below the cell. -/
theorem branch_induction (holds : CellId → Prop) {top : CellId} (here : holds top)
    (down : ∀ id child, id ∈ store.branch top → holds id → store.parentLink child = some id → holds child) :
    ∀ id ∈ store.branch top, holds id := by
  cases found : store.cell? top with
  | none => simp [branch, found]
  | some root =>
      obtain ⟨rootInside, same⟩ := mem_nodes_of_cell? found
      have within (id : CellId) : id ∈ store.branch top ↔ id ∈ root.ids := by simp [branch, found]
      -- The induction is over the tree, which the links to the parents go through from below.
      have below (cell : Cell) : cell ∈ root.nodes → holds cell.id → ∀ node ∈ cell.nodes, holds node.id := by
        induction cell using Cell.treeInduction with
        | step cell induction =>
            intro inside atCell node under
            rw [Cell.nodes_eq, List.mem_cons, List.mem_flatMap] at under
            rcases under with rfl | ⟨child, ofRing, lower⟩
            · exact atCell
            · have present := Cell.forestNodes_subset _ _ rootInside _ inside
              have linked : store.parentLink child.id = some cell.id := by
                rw [parentLink, parent?_of_mem distinct present (List.mem_map.mpr ⟨child, ofRing, rfl⟩)]
                rfl
              have reached := down cell.id child.id
                ((within _).mpr ((Cell.mem_ids _ _).mpr ⟨cell, inside, rfl⟩)) atCell linked
              have childInside := Cell.nodes_subset root cell inside child
                (Cell.mem_nodes_of_member cell child child ofRing (Cell.mem_nodes_self child))
              exact induction child ofRing childInside reached node lower
      intro id under
      obtain ⟨node, lower, rfl⟩ := (Cell.mem_ids _ _).mp ((within id).mp under)
      exact below root (Cell.mem_nodes_self root) (same ▸ here) node lower

omit distinct in
theorem mem_branch_self {id : CellId} (live : id ∈ store.ids) : id ∈ store.branch id := by
  cases found : store.cell? id with
  | none => exact absurd live ((cell?_eq_none_iff id).mp found)
  | some cell =>
      obtain ⟨_, same⟩ := mem_nodes_of_cell? found
      rw [branch, found, ← same]
      exact cell.id_mem_ids

omit distinct in
theorem exists_top_of_mem_branch {top id : CellId} (under : id ∈ store.branch top) :
    ∃ root ∈ store.nodes, root.id = top ∧ store.branch top = root.ids := by
  cases found : store.cell? top with
  | none => simp [branch, found] at under
  | some root =>
      obtain ⟨inside, same⟩ := mem_nodes_of_cell? found
      exact ⟨root, inside, same, by simp [branch, found]⟩

theorem child_mem_branch {top id child : CellId} (under : id ∈ store.branch top)
    (linked : store.parentLink child = some id) : child ∈ store.branch top := by
  obtain ⟨root, inside, _, branch⟩ := exists_top_of_mem_branch under
  obtain ⟨entry, has, ofRing⟩ := (parentLink_eq_some_iff_has distinct id child).mp linked
  rw [branch] at under ⊢
  obtain ⟨node, lower, rfl, rfl⟩ := has.node distinct inside under
  exact Cell.mem_ids_of_entry lower ofRing

theorem parent_mem_branch {top id child : CellId} (under : child ∈ store.branch top) (other : child ≠ top)
    (linked : store.parentLink child = some id) : id ∈ store.branch top := by
  obtain ⟨root, inside, rfl, branch⟩ := exists_top_of_mem_branch under
  obtain ⟨entry, has, ofRing⟩ := (parentLink_eq_some_iff_has distinct id child).mp linked
  rw [branch] at under ⊢
  exact has.mem_ids_of_child distinct ofRing inside under other

/-- Of two subtrees with a cell in common, one is in the other. -/
theorem branches_nested {first second id : CellId} (ofFirst : id ∈ store.branch first)
    (ofSecond : id ∈ store.branch second) : first ∈ store.branch second ∨ second ∈ store.branch first := by
  refine branch_induction distinct
    (fun below => below ∈ store.branch second → first ∈ store.branch second ∨ second ∈ store.branch first)
    Or.inl ?_ id ofFirst ofSecond
  intro parent child under nested linked ofSecond
  by_cases top : child = second
  · exact Or.inr (top ▸ child_mem_branch distinct under linked)
  · exact nested (parent_mem_branch distinct ofSecond top linked)

end Table

section Compare

variable {before after : Store} (distinct : before.ids.Nodup) (afterDistinct : after.ids.Nodup)

include distinct afterDistinct

theorem kin_congr {id : CellId}
    (same : ∀ parent entry, id ∈ entry.ring.members → (after.Has parent entry ↔ before.Has parent entry)) :
    after.kin id = before.kin id := by
  by_cases named : ∃ parent entry, before.Has parent entry ∧ id ∈ entry.ring.members
  · obtain ⟨parent, entry, has, ofRing⟩ := named
    rw [has.kin distinct ofRing, ((same parent entry ofRing).mpr has).kin afterDistinct ofRing]
  · rw [kin_of_unnamed fun parent entry has ofRing => named ⟨parent, entry, has, ofRing⟩,
      kin_of_unnamed fun parent entry has ofRing => named ⟨parent, entry, (same parent entry ofRing).mp has, ofRing⟩]

theorem fields?_congr {id : CellId} {entry : Entry} (here : before.Has id entry) (there : after.Has id entry)
    (kin : after.kin id = before.kin id) : after.fields? id = before.fields? id := by
  rw [here.fields? distinct, there.fields? afterDistinct, kin]

/-- A subtree stays if the entries of its cells stay. -/
theorem cell?_congr {id : CellId} (live : id ∈ before.ids)
    (same : ∀ below ∈ before.branch id, ∀ entry, before.Has below entry → after.Has below entry) :
    after.cell? id = before.cell? id := by
  have stays (cell : Cell) : cell ∈ before.nodes →
      (∀ node ∈ cell.nodes, after.Has node.id node.entry) → cell ∈ after.nodes := by
    induction cell using Cell.treeInduction with
    | step cell induction =>
        intro inside told
        have childStays (child : Cell) (ofRing : child ∈ cell.ring.members) : child ∈ after.nodes :=
          induction child ofRing (member_mem_nodes inside ofRing) fun node below =>
            told node (Cell.mem_nodes_of_member cell child node ofRing below)
        obtain ⟨found, foundInside, sameId, sameEntry⟩ := told cell (Cell.mem_nodes_self cell)
        have sameNames : found.ring.map Cell.id = cell.ring.map Cell.id := congrArg Entry.ring sameEntry
        -- The children are in both stores, by induction, and a name stands for one cell only.
        have sameRing : found.ring = cell.ring := by
          refine Ring.eq_of_map_eq ?_ sameNames
          intro first firstIn second secondIn equal
          exact node_unique afterDistinct (member_mem_nodes foundInside firstIn) (childStays second secondIn) equal
        have sameCell : found = cell := by
          rw [← Cell.mk_fields found, ← Cell.mk_fields cell, sameId, sameRing, show found.value = cell.value from
            congrArg Entry.value sameEntry]
        exact sameCell ▸ foundInside
  obtain ⟨cell, inside, rfl⟩ := (Cell.mem_forestIds _ _).mp live
  have found := cell?_of_mem distinct inside
  rw [found]
  apply cell?_of_mem afterDistinct
  apply stays cell inside
  intro node below
  have under : node.id ∈ before.branch cell.id := by
    rw [branch, found]
    exact (Cell.mem_ids _ _).mpr ⟨node, below, rfl⟩
  exact same node.id under node.entry
    (Cell.told_of_mem (Cell.forestNodes_subset _ _ inside _ below))

end Compare

end Store

end RingTape
