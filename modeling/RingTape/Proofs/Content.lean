import RingTape.Proofs.Operations

/-!
What the cells hold, whether they are materialised or not. The content of a cell is its value and the contents
of as many children as the value says; a child that is not in the store yet counts as a leaf of value 0. Every
operation on a ring is an operation on this list of children, and it changes what no other cell shows, except
that the cells above show the change.
-/

namespace RingTape

set_option autoImplicit false

/-- A tree in which every child is present. -/
inductive Content where
  | node (value : Num) (children : List Content)

namespace Content

def zero : Content := node 0 []

/-- The content of a new cell of the given value. -/
def blank (value : Num) : Content :=
  node value (List.replicate value.places zero)

end Content

namespace Cell

mutual

def content : Cell → Content
  | ⟨_, value, ⟨forward, backward⟩⟩ =>
      .node value (contents forward ++
        List.replicate (value.places - (forward.length + backward.length)) Content.zero ++
          (contents backward).reverse)

def contents : List Cell → List Content
  | [] => []
  | cell :: rest => cell.content :: contents rest

end

theorem contents_eq (cells : List Cell) : contents cells = cells.map content := by
  induction cells with
  | nil => rfl
  | cons cell rest induction => simp [contents, induction]

/-- What stands at one index of a ring: the content, and the slot if it has one. -/
structure Seat where
  handle : Option CellId
  content : Content

def Seat.of : Option Cell → Seat
  | some cell => ⟨some cell.id, cell.content⟩
  | none => ⟨none, Content.zero⟩

/-- The children of a cell from the anchor on, one for each unit of its value. -/
def seats (cell : Cell) : List Seat :=
  (cell.ring.roster cell.value).map Seat.of

theorem content_eq (cell : Cell) : cell.content = .node cell.value (cell.seats.map Seat.content) := by
  rcases cell with ⟨id, value, ⟨forward, backward⟩⟩
  simp [content, contents_eq, seats, Ring.roster, Ring.size, Function.comp_def, Seat.of]

theorem content_leaf (id : CellId) (value : Num) : (leaf id value).content = Content.blank value := by
  simp [leaf, content, contents, Content.blank, Ring.empty]

mutual

/-- The content of a cell if the cell in one slot, wherever it lies below, showed another content. -/
def showing (target : CellId) (shown : Content) : Cell → Content
  | ⟨id, value, ⟨forward, backward⟩⟩ =>
      if id = target then shown
      else
        .node value (showings target shown forward ++
          List.replicate (value.places - (forward.length + backward.length)) Content.zero ++
            (showings target shown backward).reverse)

def showings (target : CellId) (shown : Content) : List Cell → List Content
  | [] => []
  | cell :: rest => cell.showing target shown :: showings target shown rest

end

theorem showings_eq (target : CellId) (shown : Content) (cells : List Cell) :
    showings target shown cells = cells.map (showing target shown) := by
  induction cells with
  | nil => rfl
  | cons cell rest induction => simp [showings, induction]

theorem showing_self (cell : Cell) (shown : Content) : cell.showing cell.id shown = shown := by
  rcases cell with ⟨id, value, ⟨forward, backward⟩⟩
  simp [showing]

theorem showing_of_not_mem (target : CellId) (shown : Content) (cell : Cell) (absent : target ∉ cell.ids) :
    cell.showing target shown = cell.content := by
  induction cell using treeInduction with
  | step cell induction =>
      rcases cell with ⟨id, value, ⟨forward, backward⟩⟩
      rw [ids_eq, List.mem_cons, not_or] at absent
      have below (child : Cell) (member : child ∈ forward ++ backward) :
          child.showing target shown = child.content := by
        apply induction child member
        intro present
        exact absent.2 ((mem_forestIds_iff_mem_ids _ _).mpr ⟨child, member, present⟩)
      have front : forward.map (showing target shown) = forward.map content :=
        List.map_congr_left fun child member => below child (List.mem_append_left _ member)
      have back : backward.map (showing target shown) = backward.map content :=
        List.map_congr_left fun child member => below child (List.mem_append_right _ member)
      rw [showing, content, if_neg fun same => absent.1 same.symm, showings_eq, showings_eq, contents_eq,
        contents_eq, front, back]

theorem content_amend (target : CellId) (change : Cell → Cell) (shown : Content) (cell : Cell)
    (same : ∀ node ∈ cell.nodes, node.id = target → (change node).content = shown) :
    (cell.amend target change).content = cell.showing target shown := by
  induction cell using treeInduction with
  | step cell induction =>
      rcases cell with ⟨id, value, ⟨forward, backward⟩⟩
      have below (child : Cell) (member : child ∈ forward ++ backward) :
          (child.amend target change).content = child.showing target shown := by
        apply induction child member
        intro node inside equal
        exact same node (mem_nodes_of_member _ child node member inside) equal
      have front : forward.map (fun child => (child.amend target change).content) =
          forward.map (showing target shown) :=
        List.map_congr_left fun child member => below child (List.mem_append_left _ member)
      have back : backward.map (fun child => (child.amend target change).content) =
          backward.map (showing target shown) :=
        List.map_congr_left fun child member => below child (List.mem_append_right _ member)
      rw [amend, showing]
      by_cases here : id = target
      · rw [if_pos here, if_pos here]
        exact same _ (mem_nodes_self _) here
      · rw [if_neg here, if_neg here, content, contents_eq, contents_eq, forestAmend_eq, forestAmend_eq,
          List.map_map, List.map_map, List.length_map, List.length_map, showings_eq, showings_eq]
        rw [show content ∘ amend target change = fun child => (child.amend target change).content from rfl,
          front, back]

theorem showing_content (target : CellId) (shown : Content) (cell : Cell)
    (same : ∀ node ∈ cell.nodes, node.id = target → node.content = shown) :
    cell.showing target shown = cell.content := by
  rw [← content_amend target (fun node => node) shown cell same, amend_unchanged]

/-- The slot of the child at an index, if it is materialised. -/
def handleAt (seats : List Seat) (index : Nat) : Option CellId :=
  seats[index]?.bind Seat.handle

theorem handleAt_seats (cell : Cell) (index : Nat) (id : CellId) :
    handleAt cell.seats index = some id ↔ ∃ member, cell.Seats index member ∧ member.id = id := by
  simp only [handleAt, seats, List.getElem?_map, Seats]
  cases (cell.ring.roster cell.value)[index]? with
  | none => simp
  | some seat =>
      cases seat with
      | none => simp [Seat.of]
      | some member => simp [Seat.of]

/-- The same contents, with all the slots there were at the same indices, and perhaps more. -/
structure Fills (old new : List Seat) : Prop where
  contents : new.map Seat.content = old.map Seat.content
  handles : ∀ index id, handleAt old index = some id → handleAt new index = some id

theorem Grown.fills {host : Cell} {ring : Ring Cell} {before after : Pool} (hostFits : host.Fits)
    (grown : host.Grown ring before after) : Fills host.seats (host.withRing host.value ring).seats := by
  have lengths : (ring.roster host.value).length = (host.ring.roster host.value).length := by
    rw [Ring.length_roster _ _ grown.fits.size_le, Ring.length_roster _ _ (Ring.Fits.size_le hostFits)]
  constructor
  · simp only [seats, List.map_map, value_withRing, ring_withRing]
    apply List.ext_getElem
    · simpa using lengths
    · intro index newBound oldBound
      rw [List.length_map] at newBound oldBound
      rw [List.getElem_map, List.getElem_map]
      cases occupant : (ring.roster host.value)[index] with
      | some member =>
          have seated : (host.withRing host.value ring).Seats index member := by
            rw [Seats, value_withRing, ring_withRing, List.getElem?_eq_getElem newBound, occupant]
          rcases grown.blank index member seated with earlier | ⟨empty, fresh⟩
          · rw [Seats, List.getElem?_eq_getElem oldBound, Option.some.injEq] at earlier
            rw [earlier]
          · rw [List.getElem?_eq_getElem oldBound, Option.some.injEq] at empty
            have shown := content_leaf member.id 0
            rw [← fresh] at shown
            simp only [Function.comp_apply, empty, Seat.of, shown]
            rfl
      | none =>
          cases earlier : (host.ring.roster host.value)[index] with
          | none => rfl
          | some member =>
              have seated : host.Seats index member := by
                rw [Seats, List.getElem?_eq_getElem oldBound, earlier]
              have still := grown.kept index member seated
              rw [Seats, value_withRing, ring_withRing, List.getElem?_eq_getElem newBound, occupant] at still
              simp at still
  · intro index id
    rw [handleAt_seats, handleAt_seats]
    rintro ⟨member, seated, same⟩
    exact ⟨member, grown.kept index member seated, same⟩

theorem Grown.content {host : Cell} {ring : Ring Cell} {before after : Pool} (hostFits : host.Fits)
    (grown : host.Grown ring before after) : (host.withRing host.value ring).content = host.content := by
  rw [content_eq, content_eq, value_withRing, (grown.fills hostFits).contents]

end Cell

namespace Store

open Cell (Seat handleAt Fills)

def value? (store : Store) (id : CellId) : Option Num :=
  (store.cell? id).map Cell.value

def content? (store : Store) (id : CellId) : Option Content :=
  (store.cell? id).map Cell.content

/-- The content a cell would have if another one showed `shown`. -/
def shown? (store : Store) (target : CellId) (shown : Content) (id : CellId) : Option Content :=
  (store.cell? id).map (Cell.showing target shown)

def seats (store : Store) (id : CellId) : List Seat :=
  ((store.cell? id).map Cell.seats).getD []

/-- The slots of a cell and of all cells below it. -/
def branch (store : Store) (id : CellId) : List CellId :=
  ((store.cell? id).map Cell.ids).getD []

theorem cell?_replace {store : Store} (distinct : store.ids.Nodup) {host : Cell} (inside : host ∈ store.nodes)
    {value : Num} {ring : Ring Cell} {pool : Pool} (after : (store.replace host.id value ring pool).ids.Nodup) :
    (store.replace host.id value ring pool).cell? host.id = some (host.withRing value ring) :=
  cell?_of_mem after (host_mem_replace distinct inside value ring pool)

/--
What the cells show after a replacement whose members are old children or new cells: everything as before,
except that the replaced cell shows its new content.
-/
theorem content?_replace {store : Store} (distinct : store.ids.Nodup) {host : Cell} (inside : host ∈ store.nodes)
    {value : Num} {ring : Ring Cell} {pool : Pool} (after : (store.replace host.id value ring pool).ids.Nodup)
    (members : ∀ member ∈ ring.members, member ∈ host.ring.members ∨ ∀ id ∈ member.ids, id ∉ store.ids)
    (id : CellId) (before : store.contains id = true)
    (still : (store.replace host.id value ring pool).contains id = true) :
    (store.replace host.id value ring pool).content? id =
      store.shown? host.id (host.withRing value ring).content id := by
  rw [contains_iff] at before still
  obtain ⟨node, present, same⟩ := (Cell.mem_forestIds _ _).mp still
  subst same
  rw [content?, cell?_of_mem after present, shown?]
  rcases (mem_nodes_replace distinct inside value ring pool node).mp present with
    isHost | ⟨member, ofRing, below⟩ | ⟨old, wasThere, outside, same⟩
  · subst isHost
    rw [Cell.id_withRing, cell?_of_mem distinct inside]
    simp [Cell.showing_self]
  · rcases members member ofRing with child | fresh
    · have nodeInside : node ∈ store.nodes :=
        Cell.forestNodes_subset _ _ (member_mem_nodes inside child) _ below
      have notAbove := Cell.id_not_mem_of_below distinct inside child below
      rw [cell?_of_mem distinct nodeInside]
      simp [Cell.showing_of_not_mem _ _ _ notAbove]
    · exact absurd before (fresh node.id ((Cell.mem_ids _ _).mpr ⟨node, below, rfl⟩))
  · have id_same : node.id = old.id := by
      rw [same]
      exact Cell.id_amend _ _ _ fun _ => rfl
    have shown : node.content = old.showing host.id (host.withRing value ring).content := by
      rw [same]
      apply Cell.content_amend
      intro below lies equal
      have belowInside : below ∈ store.nodes := Cell.forestNodes_subset _ _ wasThere _ lies
      rw [node_unique distinct belowInside inside equal]
    rw [id_same, cell?_of_mem distinct wasThere]
    simp [shown]

/-- Which cells live on after a replacement: those outside the old ring, and those that are in the new one. -/
theorem contains_replace {store : Store} (distinct : store.ids.Nodup) {host : Cell} (inside : host ∈ store.nodes)
    {value : Num} {ring : Ring Cell} {pool : Pool} (after : (store.replace host.id value ring pool).ids.Nodup)
    (id : CellId) (before : store.contains id = true) :
    (store.replace host.id value ring pool).contains id = true ↔
      (id ∈ Cell.forestIds host.ring.members → id ∈ Cell.forestIds ring.members) := by
  rw [contains_iff] at before ⊢
  have counts : (store.replace host.id value ring pool).ids.count id +
      (Cell.forestIds host.ring.members).count id =
        store.ids.count id + (Cell.forestIds ring.members).count id :=
    Cell.count_forestReplace distinct value ring id inside
  have most := List.nodup_iff_count_le_one.mp after id
  have first := List.count_pos_iff.mpr before
  have own := Cell.ids_nodup distinct inside
  rw [Cell.ids_eq, List.nodup_cons] at own
  have ownMost := List.nodup_iff_count_le_one.mp own.2 id
  have firstMost := List.nodup_iff_count_le_one.mp distinct id
  simp only [← List.count_pos_iff]
  constructor
  · intro alive below
    omega
  · intro kept
    by_cases below : 0 < (Cell.forestIds host.ring.members).count id
    · have listed := kept below
      omega
    · omega

end Store

end RingTape
