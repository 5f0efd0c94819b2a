import RingTape.Proofs.Residence
import RingTape.Proofs.Shape

/-!
Memory as it is seen from outside: the content of the whole tree, and where in it the head stands. A path
leads from the top down to a cell by the index of each child, counted from the anchor. A change of one cell is
a change of the content at the end of its path, and of nothing else.
-/

namespace RingTape

set_option autoImplicit false

namespace Content

def value : Content → Num
  | .node value _ => value

def children : Content → List Content
  | .node _ children => children

/-- The content at the end of a path. -/
def at? : List Nat → Content → Option Content
  | [], content => some content
  | index :: path, .node _ children => children[index]?.bind (at? path)

/-- The content with another one at the end of a path. -/
def put : Content → List Nat → Content → Content
  | _, [], shown => shown
  | .node value children, index :: path, shown =>
      .node value (children.modify index fun child => child.put path shown)

theorem put_at? {path : List Nat} {content shown : Content} (there : content.at? path = some shown) :
    content.put path shown = content := by
  induction path generalizing content with
  | nil =>
      cases there
      rfl
  | cons index path induction =>
      rcases content with ⟨value, children⟩
      obtain ⟨child, seated, below⟩ := Option.bind_eq_some_iff.mp there
      rw [put]
      congr 1
      apply List.ext_getElem?
      intro place
      rw [List.getElem?_modify]
      by_cases same : index = place
      · subst same
        simp [seated, induction below]
      · simp [same]

end Content

namespace Ring

variable {α β : Type}

theorem roster_map (value : Num) (change : α → β) (ring : Ring α) :
    (ring.map change).roster value = (ring.roster value).map (Option.map change) := by
  simp [roster, map, size]

end Ring

namespace Cell

/-- The child at an index, if it is materialised. -/
def child? (index : Nat) (cell : Cell) : Option Cell :=
  (cell.ring.roster cell.value)[index]?.join

/-- The cell at the end of a path, if it is materialised. -/
def follow : List Nat → Cell → Option Cell
  | [], cell => some cell
  | index :: path, cell => (cell.child? index).bind (follow path)

theorem length_children {cell : Cell} (fits : cell.Fits) : cell.content.children.length = cell.value.places := by
  rw [content_eq, Content.children, List.length_map, seats, List.length_map,
    Ring.length_roster _ _ (Ring.Fits.size_le fits)]

theorem child?_eq_some_iff {cell member : Cell} {index : Nat} :
    cell.child? index = some member ↔ cell.Seats index member := by
  rw [child?, Option.join_eq_some_iff, Seats]

theorem child?_mem {cell member : Cell} {index : Nat} (found : cell.child? index = some member) :
    member ∈ cell.ring.members := by
  have seated := List.mem_of_getElem? (child?_eq_some_iff.mp found)
  simpa [Ring.roster, Ring.members] using seated

theorem child?_map (index : Nat) (change : Cell → Cell) (cell : Cell) :
    child? index { cell with ring := cell.ring.map change } = (cell.child? index).map change := by
  simp only [child?, Ring.roster_map, List.getElem?_map]
  rcases (cell.ring.roster cell.value)[index]? with _ | _ | member <;> rfl

theorem follow_concat (path : List Nat) (index : Nat) (cell : Cell) :
    cell.follow (path ++ [index]) = (cell.follow path).bind (child? index) := by
  induction path generalizing cell with
  | nil => simp [follow]
  | cons first path induction =>
      rw [List.cons_append, follow, follow, Option.bind_assoc]
      exact Option.bind_congr fun child _ => induction child

theorem follow_mem_nodes {path : List Nat} {cell host : Cell} (found : cell.follow path = some host) :
    host ∈ cell.nodes := by
  induction path generalizing cell with
  | nil =>
      cases found
      exact mem_nodes_self host
  | cons index path induction =>
      obtain ⟨child, seated, below⟩ := Option.bind_eq_some_iff.mp found
      exact mem_nodes_of_member cell child host (child?_mem seated) (induction below)

/-- No two indices of a ring lead to the same cell. -/
theorem disjoint_children {cell first second : Cell} {index other : Nat} (distinct : cell.ids.Nodup)
    (atIndex : cell.child? index = some first) (atOther : cell.child? other = some second) (apart : index ≠ other) :
    List.Disjoint first.ids second.ids := by
  rw [ids_eq, List.nodup_cons] at distinct
  have spread := distinct.2
  rw [forestIds, forestNodes_eq, List.map_flatMap, List.nodup_flatMap, Ring.members, List.pairwise_append] at spread
  obtain ⟨_, near, far, across⟩ := spread
  have around : (cell.ring.roster cell.value).Pairwise fun left right =>
      ∀ one ∈ left, ∀ two ∈ right, List.Disjoint one.ids two.ids := by
    simp only [Ring.roster, List.pairwise_append, List.pairwise_map, List.pairwise_reverse, List.pairwise_replicate,
      List.mem_append, List.mem_map, List.mem_replicate, List.mem_reverse]
    refine ⟨⟨?_, ?_, ?_⟩, ?_, ?_⟩
    · exact near.imp fun apart _ one _ two => by cases one; cases two; exact apart
    · simp
    · rintro _ _ _ ⟨_, rfl⟩ _ _ _ two
      cases two
    · exact far.imp fun apart _ one _ two => by cases one; cases two; exact fun id left right => apart right left
    · rintro _ (⟨left, leftIn, rfl⟩ | ⟨_, rfl⟩) _ ⟨right, rightIn, rfl⟩ _ one _ two
      · cases one
        cases two
        exact across left leftIn right rightIn
      · cases one
  rw [child?_eq_some_iff] at atIndex atOther
  obtain ⟨bound, same⟩ := List.getElem?_eq_some_iff.mp atIndex
  obtain ⟨boundOther, sameOther⟩ := List.getElem?_eq_some_iff.mp atOther
  rw [List.pairwise_iff_getElem] at around
  rcases Nat.lt_or_gt_of_ne apart with before | after
  · exact around index other bound boundOther before first same second sameOther
  · exact fun id left right => around other index boundOther bound after second sameOther first same right left

theorem ids_nodup_of_member {cell child : Cell} (distinct : cell.ids.Nodup) (member : child ∈ cell.ring.members) :
    child.ids.Nodup ∧ cell.id ∉ child.ids := by
  rw [ids_eq, List.nodup_cons] at distinct
  obtain ⟨own, spread⟩ := distinct
  constructor
  · rw [forestIds, forestNodes_eq, List.map_flatMap, List.nodup_flatMap] at spread
    exact spread.1 child member
  · exact fun below => own ((mem_forestIds_iff_mem_ids _ _).mpr ⟨child, member, below⟩)

/-- A change of the cell at the end of a path leaves the path as it was. -/
theorem follow_amend {path : List Nat} {top host : Cell} (distinct : top.ids.Nodup)
    (found : top.follow path = some host) (change : Cell → Cell) :
    (top.amend host.id change).follow path = some (change host) := by
  induction path generalizing top with
  | nil =>
      cases found
      rw [amend_self]
      rfl
  | cons index path induction =>
      obtain ⟨child, seated, below⟩ := Option.bind_eq_some_iff.mp found
      obtain ⟨inner, notBelow⟩ := ids_nodup_of_member distinct (child?_mem seated)
      have other : top.id ≠ host.id := fun same =>
        notBelow ((mem_ids _ _).mpr ⟨host, follow_mem_nodes below, same.symm⟩)
      rw [amend_of_ne _ _ _ other, follow, child?_map, seated]
      exact induction inner below

/-- What the top shows of a change at the end of a path. -/
theorem content_amend_follow {path : List Nat} {top host : Cell} (distinct : top.ids.Nodup)
    (found : top.follow path = some host) (change : Cell → Cell) :
    (top.amend host.id change).content = top.content.put path (change host).content := by
  induction path generalizing top with
  | nil =>
      cases found
      rw [amend_self]
      rfl
  | cons index path induction =>
      obtain ⟨child, seated, below⟩ := Option.bind_eq_some_iff.mp found
      obtain ⟨inner, notBelow⟩ := ids_nodup_of_member distinct (child?_mem seated)
      have inside := (mem_ids _ _).mpr ⟨host, follow_mem_nodes below, rfl⟩
      have other : top.id ≠ host.id := fun same => notBelow (same ▸ inside)
      rw [amend_of_ne _ _ _ other, content_eq, content_eq top, Content.put]
      congr 1
      apply List.ext_getElem?
      intro place
      simp only [seats, Ring.roster_map, List.getElem?_map, List.getElem?_modify]
      by_cases here : index = place
      · subst here
        rw [child?_eq_some_iff.mp seated]
        simp [Seat.of, induction inner below]
      · simp only [here, if_false]
        rcases occupant : (top.ring.roster top.value)[place]? with _ | _ | member
        · rfl
        · rfl
        · have apart := disjoint_children distinct seated (child?_eq_some_iff.mpr occupant) here
          simp [Seat.of, amend_of_not_mem _ _ _ (apart inside)]

/-- The content at the end of a path is that of the cell which is there. -/
theorem at?_content {path : List Nat} {top host : Cell} (found : top.follow path = some host) :
    top.content.at? path = some host.content := by
  induction path generalizing top with
  | nil =>
      cases found
      rfl
  | cons index path induction =>
      obtain ⟨child, seated, below⟩ := Option.bind_eq_some_iff.mp found
      rw [content_eq, Content.at?, List.getElem?_map, seats, List.getElem?_map, child?_eq_some_iff.mp seated]
      exact induction below

end Cell

/-- The content of the whole memory, and the way from the head up to the top: the index of each cell in its ring. -/
structure View where
  content : Content
  trail : List Nat

namespace View

/-- The content under the head. -/
def here (view : View) : Content :=
  (view.content.at? view.trail.reverse).getD Content.zero

/-- Another content under the head. -/
def put (view : View) (shown : Content) : View :=
  { view with content := view.content.put view.trail.reverse shown }

/-- The head on the child at an index. -/
def down (view : View) (index : Nat) : View :=
  { view with trail := index :: view.trail }

end View

namespace Store

/-- The memory is one well-formed tree that looks like this from outside, with the head on the given cell. -/
structure Depicts (store : Store) (view : View) (host : Cell) : Prop where
  formed : store.WellFormed
  tree : ∃ top, store.trees = [top] ∧ top.content = view.content ∧ top.follow view.trail.reverse = some host

section Depicts

variable {store : Store} {view : View} {host : Cell} (depicts : store.Depicts view host)

include depicts

theorem Depicts.sound : store.Sound :=
  (wellFormed_iff_sound store).mp depicts.formed

theorem Depicts.mem : host ∈ store.nodes := by
  obtain ⟨top, alone, _, found⟩ := depicts.tree
  exact (Cell.mem_forestNodes _ _).mpr ⟨top, by simp [alone], Cell.follow_mem_nodes found⟩

theorem Depicts.fits : host.Fits :=
  depicts.sound.rings host depicts.mem

theorem Depicts.here_eq : view.here = host.content := by
  obtain ⟨top, _, shown, found⟩ := depicts.tree
  rw [View.here, ← shown, Cell.at?_content found, Option.getD_some]

theorem Depicts.here_value : view.here.value = host.value := by
  rw [depicts.here_eq, Cell.content_eq]
  rfl

theorem Depicts.here_children : view.here.children = host.seats.map Cell.Seat.content := by
  rw [depicts.here_eq, Cell.content_eq]
  rfl

theorem Depicts.rooted : ∃ root, store.Rooted root := by
  obtain ⟨top, alone, _, _⟩ := depicts.tree
  exact ⟨top.id, depicts.sound, by rw [alone]; rfl⟩

theorem Depicts.down {index : Nat} {member : Cell} (seated : host.Seats index member) :
    store.Depicts (view.down index) member := by
  obtain ⟨top, alone, shown, found⟩ := depicts.tree
  refine ⟨depicts.formed, top, alone, shown, ?_⟩
  rw [View.down, List.reverse_cons, Cell.follow_concat, found, Option.bind_some, Cell.child?_eq_some_iff.mpr seated]

/-- A cell below the top is seated in the ring of the cell above. -/
theorem Depicts.above {index : Nat} {up : List Nat} (below : view.trail = index :: up) :
    ∃ parent, store.Depicts ⟨view.content, up⟩ parent ∧ parent.Seats index host := by
  obtain ⟨top, alone, shown, found⟩ := depicts.tree
  rw [below, List.reverse_cons, Cell.follow_concat] at found
  obtain ⟨parent, above, seated⟩ := Option.bind_eq_some_iff.mp found
  exact ⟨parent, ⟨depicts.formed, top, alone, shown, above⟩, Cell.child?_eq_some_iff.mp seated⟩

/-- On the top there is no parent. -/
theorem Depicts.parent?_eq_none (atTop : view.trail = []) : store.parent? host.id = none := by
  obtain ⟨top, alone, _, found⟩ := depicts.tree
  rw [atTop] at found
  cases found
  exact (mem_trees_iff depicts.sound depicts.mem).mp (by simp [alone])

/-- A change of the cell under the head is a change of the content there. -/
theorem Depicts.replace {value : Num} {ring : Ring Cell} {pool : Pool}
    (after : (store.replace host.id value ring pool).Sound) :
    (store.replace host.id value ring pool).Depicts (view.put (host.withRing value ring).content)
      (host.withRing value ring) := by
  obtain ⟨top, alone, shown, found⟩ := depicts.tree
  have distinct : top.ids.Nodup := by
    have all := depicts.sound.distinct
    rw [ids, alone] at all
    simpa using all
  refine ⟨(wellFormed_iff_sound _).mpr after, top.amend host.id (Cell.withRing value ring), ?_, ?_, ?_⟩
  · simp [Store.replace, Cell.forestReplace, Cell.forestAmend_eq, alone]
  · rw [Cell.content_amend_follow distinct found, shown]
    rfl
  · exact Cell.follow_amend distinct found _

/-- A ring that grows looks the same. -/
theorem Depicts.grow {ring : Ring Cell} {pool : Pool} (grown : host.Grown ring store.pool pool) :
    (store.replace host.id host.value ring pool).Depicts view (host.withRing host.value ring) := by
  have replaced := depicts.replace (depicts.sound.grow depicts.mem grown)
  obtain ⟨top, _, shown, found⟩ := depicts.tree
  have same : view.put (host.withRing host.value ring).content = view := by
    rw [grown.content depicts.fits, View.put, ← shown, Content.put_at? (Cell.at?_content found), shown]
  rw [same] at replaced
  exact replaced

end Depicts

/-- The memory looks like this from outside, with the head in the given slot. -/
def Shows (store : Store) (view : View) (head : CellId) : Prop :=
  ∃ host, store.Depicts view host ∧ host.id = head

end Store

end RingTape
