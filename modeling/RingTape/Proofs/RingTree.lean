import RingTape.Proofs.Content

/-!
The rings as lists of children that are all there. Each operation on a ring finds the list that its parent
shows, whatever part of it is materialised, and does one thing to it: a walk looks at another index, a change
of anchor rotates, an insertion inserts and a removal erases.
-/

namespace RingTape

set_option autoImplicit false

namespace Store

open Cell (Seat handleAt Fills)

/-- Nothing happened but that some children of one cell may have got a slot. -/
structure Unfolds (before after : Store) (parent : CellId) : Prop where
  wellFormed : after.WellFormed
  contents : ∀ id, before.contains id = true → after.content? id = before.content? id
  fills : Fills (before.seats parent) (after.seats parent)

/-- One cell has got a new value and new children, some slots have been given up, and all else shows as before. -/
structure Edits (before after : Store) (parent : CellId) (value : Num) (children : List Seat)
    (gone : List CellId) : Prop where
  wellFormed : after.WellFormed
  valued : after.value? parent = some value
  seated : after.seats parent = children
  dropped : ∀ id, before.contains id = true → (after.contains id = false ↔ id ∈ gone)
  contents : ∀ id, before.contains id = true → after.contains id = true →
    after.content? id = before.shown? parent (.node value (children.map Seat.content)) id

section Replaced

variable {store : Store} (sound : store.Sound) {host : Cell} (inside : host ∈ store.nodes)

include sound inside

theorem seats_of_mem : store.seats host.id = host.seats := by
  rw [seats, cell?_of_mem sound.distinct inside]
  rfl

omit inside in
theorem fresh_not_mem {ring : Ring Cell} {pool : Pool} (grown : host.Grown ring store.pool pool)
    {member : Cell} (ofRing : member ∈ ring.members) :
    member ∈ host.ring.members ∨ ∀ id ∈ member.ids, id ∉ store.ids := by
  obtain ⟨fresh, members, taken⟩ := grown.extra
  rcases List.mem_append.mp (members.mem_iff.mp ofRing) with new | old
  · right
    obtain ⟨slot, listed, same⟩ := List.mem_map.mp new
    intro id own
    rw [← same, Cell.ids_leaf, List.mem_singleton] at own
    subst own
    exact sound.not_mem_of_taken taken listed
  · exact Or.inl old

theorem unfolds_of_grown {ring : Ring Cell} {pool : Pool} (grown : host.Grown ring store.pool pool) :
    Unfolds store (store.replace host.id host.value ring pool) host.id := by
  have fits := sound.rings host inside
  have after := sound.grow inside grown
  have shows := grown.content fits
  refine ⟨(wellFormed_iff_sound _).mpr after, ?_, ?_⟩
  · intro id before
    have still : (store.replace host.id host.value ring pool).contains id = true := by
      rw [contains_replace sound.distinct inside after.distinct id before]
      intro below
      obtain ⟨fresh, members, _⟩ := grown.extra
      rw [(Cell.forestIds_perm members).mem_iff, Cell.forestIds_append]
      exact List.mem_append_right _ below
    have content := content?_replace sound.distinct inside after.distinct
      (fun member ofRing => fresh_not_mem sound grown ofRing) id before still
    obtain ⟨node, present, same⟩ := (Cell.mem_forestIds _ _).mp ((contains_iff id).mp before)
    subst same
    rw [content, shows, shown?, content?, cell?_of_mem sound.distinct present, Option.map_some,
      Option.map_some, Cell.showing_content]
    intro below lies equal
    have belowInside : below ∈ store.nodes := Cell.forestNodes_subset _ _ present _ lies
    rw [node_unique sound.distinct belowInside inside equal]
  · rw [seats_of_mem sound inside, seats, cell?_replace sound.distinct inside after.distinct]
    exact grown.fills fits

theorem edits_of_replace {value : Num} {ring : Ring Cell} {pool : Pool}
    (after : (store.replace host.id value ring pool).Sound)
    (members : ∀ member ∈ ring.members, member ∈ host.ring.members ∨ ∀ id ∈ member.ids, id ∉ store.ids)
    {gone : List CellId}
    (dropped : ∀ id ∈ store.ids, (id ∈ Cell.forestIds host.ring.members ∧ id ∉ Cell.forestIds ring.members) ↔
      id ∈ gone) :
    Edits store (store.replace host.id value ring pool) host.id value (host.withRing value ring).seats gone := by
  have found := cell?_replace sound.distinct inside after.distinct
  refine ⟨(wellFormed_iff_sound _).mpr after, ?_, ?_, ?_, ?_⟩
  · rw [value?, found]
    rfl
  · rw [seats, found]
    rfl
  · intro id before
    rw [← dropped id ((contains_iff id).mp before), ← Bool.not_eq_true,
      contains_replace sound.distinct inside after.distinct id before]
    exact Classical.not_imp
  · intro id before still
    rw [content?_replace sound.distinct inside after.distinct members id before still, Cell.content_eq]
    rfl

end Replaced

/-- A walk within a ring ends at the given index. -/
def Steps (store : Store) (program : StoreM CellId) (parent : CellId) (index : Nat) : Prop :=
  ∃ reached after, program store = .ok reached after ∧ Unfolds store after parent ∧
    handleAt (after.seats parent) index = some reached

/-- A new cell of the given value is put in at the given position. -/
def Inserts (store : Store) (program : StoreM CellId) (parent : CellId) (size : Num) (position : Nat)
    (value : Num) : Prop :=
  ∃ fresh after filled, program store = .ok fresh after ∧ store.contains fresh = false ∧
    Fills (store.seats parent) filled ∧
    Edits store after parent (size + 1)
      (filled.insertIdx position ⟨some fresh, Content.blank value⟩) []

/-- The list without the child at a position, read from the successor on if the child came first. -/
def cut (seats : List Seat) (position successor : Nat) : List Seat :=
  if position = 0 then (seats.eraseIdx 0).rotate (successor - 1) else seats.eraseIdx position

/-- The child at one index is taken out, and the one at another is returned. -/
def Deletes (store : Store) (program : StoreM CellId) (parent : CellId) (size : Num)
    (position successor : Nat) : Prop :=
  ∃ gone survivor after filled, program store = .ok survivor after ∧ Fills (store.seats parent) filled ∧
    handleAt filled position = some gone ∧ handleAt filled successor = some survivor ∧
    Edits store after parent (size - 1) (cut filled position successor) (store.branch gone)

section Seats

variable {host : Cell} {wide ring : Ring Cell} {position successor : Nat}

theorem seats_of_rotated (roster : ring.roster host.value = (host.ring.roster host.value).rotate position) :
    (host.withRing host.value ring).seats = host.seats.rotate position := by
  rw [Cell.seats, Cell.seats, Cell.value_withRing, Cell.ring_withRing, roster, List.map_rotate]

theorem seats_of_spliced {before after : Pool} {fresh : CellId} {value : Num}
    (spliced : (host.withRing host.value wide).Spliced position fresh value ring before after) :
    (host.withRing (host.value + 1) ring).seats =
      (host.withRing host.value wide).seats.insertIdx position ⟨some fresh, Content.blank value⟩ := by
  have roster := spliced.roster
  rw [Cell.value_withRing] at roster
  rw [Cell.seats, Cell.value_withRing, Cell.ring_withRing, roster, List.map_insertIdx]
  simp only [Seat.of, Cell.content_leaf]
  rfl

theorem seats_of_severed {gone : Cell}
    (severed : (host.withRing host.value wide).Severed position successor gone ring) :
    (host.withRing (host.value - 1) ring).seats = cut (host.withRing host.value wide).seats position successor := by
  have roster := severed.roster
  rw [Cell.value_withRing] at roster
  rw [Cell.seats, Cell.value_withRing, Cell.ring_withRing, roster, cut]
  split_ifs
  · rw [List.map_rotate, Cell.seats, List.eraseIdx_map]
    rfl
  · rw [Cell.seats, List.eraseIdx_map]
    rfl

end Seats

section Refinements

variable {store : Store} (sound : store.Sound) {host member : Cell} (inside : host ∈ store.nodes) {index : Nat}

include sound inside

theorem Strides.steps {step : CellId → StoreM CellId} {distance : Int} (leads : Strides step distance)
    (seated : host.Seats index member) :
    Steps store (step member.id) host.id (Ring.turn host.value.places index distance) := by
  obtain ⟨reached, ring, pool, ran, grown, there⟩ := leads store host member index sound inside seated
  refine ⟨reached.id, _, ran, unfolds_of_grown sound inside grown, ?_⟩
  rw [seats, cell?_replace sound.distinct inside (sound.grow inside grown).distinct]
  exact (Cell.handleAt_seats _ _ _).mpr ⟨reached, there, rfl⟩

theorem steps_child (positive : 0 < host.value.places) : Steps store (child host.id) host.id 0 := by
  obtain ⟨reached, ring, pool, ran, grown, there⟩ := run_child sound inside positive
  refine ⟨reached.id, _, ran, unfolds_of_grown sound inside grown, ?_⟩
  rw [seats, cell?_replace sound.distinct inside (sound.grow inside grown).distinct]
  exact (Cell.handleAt_seats _ _ _).mpr ⟨reached, there, rfl⟩

theorem edits_makeFirst (seated : host.Seats index member) :
    ∃ after, makeFirst member.id store = .ok () after ∧
      Edits store after host.id host.value ((store.seats host.id).rotate index) [] := by
  obtain ⟨ring, ran, fits, members, roster⟩ := run_makeFirst sound inside seated
  rw [seats_of_mem sound inside, ← seats_of_rotated roster]
  refine ⟨_, ran, edits_of_replace sound inside (sound.rearrange inside fits members) ?_ ?_⟩
  · intro child ofRing
    exact Or.inl (members.mem_iff.mp ofRing)
  · intro id _
    rw [(Cell.forestIds_perm members).mem_iff]
    simp

/-- What holds of any growth followed by an insertion. -/
theorem edits_of_spliced {wide ring : Ring Cell} {between after : Pool} {position : Nat} {fresh : CellId}
    {value : Num} (grown : host.Grown wide store.pool between)
    (spliced : (host.withRing host.value wide).Spliced position fresh value ring between after) :
    store.contains fresh = false ∧
      Edits store (store.replace host.id (host.value + 1) ring after) host.id (host.value + 1)
        ((host.withRing host.value wide).seats.insertIdx position ⟨some fresh, Content.blank value⟩) [] := by
  have result := sound.splice inside grown spliced
  obtain ⟨extra, members, extraTaken⟩ := grown.extra
  have new : store.contains fresh = false := by
    rw [← Bool.not_eq_true, contains_iff, ← List.count_pos_iff]
    have used : ((store.ids).count fresh : Int) = store.pool.usage fresh := sound.slots fresh
    have more := extraTaken fresh
    have most := Pool.usage_le_one after fresh
    have last := spliced.taken fresh
    rw [List.count_singleton_self] at last
    omega
  refine ⟨new, ?_⟩
  rw [← seats_of_spliced spliced]
  refine edits_of_replace sound inside result ?_ ?_
  · intro child ofRing
    rcases List.mem_cons.mp (spliced.members.mem_iff.mp ofRing) with same | old
    · right
      intro id own
      rw [same, Cell.ids_leaf, List.mem_singleton] at own
      rw [own, ← contains_iff, new]
      simp
    · exact fresh_not_mem sound grown old
  · intro id _
    simp only [List.not_mem_nil, iff_false, not_and, Classical.not_not]
    intro below
    rw [(Cell.forestIds_perm spliced.members).mem_iff, Cell.forestIds_cons, Cell.ring_withRing]
    apply List.mem_append_right
    rw [(Cell.forestIds_perm members).mem_iff, Cell.forestIds_append]
    exact List.mem_append_right _ below

/-- What holds of any growth followed by a removal. -/
theorem edits_of_severed {wide ring : Ring Cell} {between : Pool} {position successor : Nat} {gone : Cell}
    (grown : host.Grown wide store.pool between)
    (severed : (host.withRing host.value wide).Severed position successor gone ring) :
    Edits store (store.replace host.id (host.value - 1) ring (between.give (gone.id :: gone.descendants)))
      host.id (host.value - 1) (cut (host.withRing host.value wide).seats position successor)
      (store.branch gone.id) := by
  have result := sound.sever inside grown severed
  obtain ⟨extra, members, _⟩ := grown.extra
  have wideMembers := severed.members
  rw [Cell.ring_withRing] at wideMembers
  rw [← seats_of_severed severed]
  refine edits_of_replace sound inside result ?_ ?_
  · intro child ofRing
    exact fresh_not_mem sound grown (wideMembers.mem_iff.mpr (List.mem_cons_of_mem gone ofRing))
  · intro id present
    -- In the grown ring every slot is either under the removed child or under one that stays.
    have spread : (Cell.forestIds wide.members).Nodup := by
      have grownSound := sound.grow inside grown
      have own := Cell.ids_nodup grownSound.distinct
        (host_mem_replace sound.distinct inside host.value wide between)
      rw [Cell.ids_eq, List.nodup_cons] at own
      exact own.2
    have parts := Cell.forestIds_perm wideMembers
    rw [Cell.forestIds_cons] at parts
    have apart := (List.nodup_append.mp (parts.nodup_iff.mp spread)).2.2
    have goneMember := wideMembers.mem_iff.mpr (List.mem_cons_self)
    rcases fresh_not_mem sound grown goneMember with old | new
    · have branch : store.branch gone.id = gone.ids := by
        rw [Store.branch, cell?_of_mem sound.distinct (member_mem_nodes inside old)]
        rfl
      rw [branch]
      constructor
      · rintro ⟨below, notKept⟩
        have inWide : id ∈ Cell.forestIds wide.members := by
          rw [(Cell.forestIds_perm members).mem_iff, Cell.forestIds_append]
          exact List.mem_append_right _ below
        rcases List.mem_append.mp (parts.mem_iff.mp inWide) with under | kept
        · exact under
        · exact absurd kept notKept
      · intro under
        refine ⟨(Cell.mem_forestIds_iff_mem_ids _ _).mpr ⟨gone, old, under⟩, ?_⟩
        intro kept
        exact apart id under id kept rfl
    · have branch : store.branch gone.id = [] := by
        have absent := new gone.id gone.id_mem_ids
        rw [Store.branch, (cell?_eq_none_iff _).mpr absent]
        rfl
      rw [branch]
      simp only [List.not_mem_nil, iff_false, not_and, Classical.not_not]
      intro below
      have inWide : id ∈ Cell.forestIds wide.members := by
        rw [(Cell.forestIds_perm members).mem_iff, Cell.forestIds_append]
        exact List.mem_append_right _ below
      rcases List.mem_append.mp (parts.mem_iff.mp inWide) with under | kept
      · exact absurd present (new id under)
      · exact kept

theorem inserts_insertBefore (seated : host.Seats index member) (value : Num)
    (room : host.value.toInt < Num.greatest) :
    Inserts store (insertBefore member.id value) host.id host.value
      (if index = 0 then host.value.places else index) value := by
  obtain ⟨fresh, wide, ring, between, after, ran, grown, spliced⟩ :=
    run_insertBefore sound inside seated value room
  have ⟨new, edits⟩ := edits_of_spliced sound inside grown spliced
  refine ⟨fresh, _, _, ran, new, ?_, edits⟩
  rw [seats_of_mem sound inside]
  exact grown.fills (sound.rings host inside)

theorem inserts_insertAfter (seated : host.Seats index member) (value : Num)
    (room : host.value.toInt < Num.greatest) :
    Inserts store (insertAfter member.id value) host.id host.value (index + 1) value := by
  obtain ⟨fresh, wide, ring, between, after, ran, grown, spliced⟩ :=
    run_insertAfter sound inside seated value room
  have ⟨new, edits⟩ := edits_of_spliced sound inside grown spliced
  refine ⟨fresh, _, _, ran, new, ?_, edits⟩
  rw [seats_of_mem sound inside]
  exact grown.fills (sound.rings host inside)

theorem deletes_deleteAlong (seated : host.Seats index member) (several : host.value ≠ 1)
    {step : CellId → StoreM CellId} {unit : Int} (leads : Strides step unit) (sign : unit = 1 ∨ unit = -1) :
    Deletes store (deleteAlong step member.id) host.id host.value
      (Ring.turn host.value.places index unit) (Ring.turn host.value.places index (unit + unit)) := by
  obtain ⟨gone, survivor, wide, ring, between, ran, grown, survives, _, severed⟩ :=
    run_deleteAlong sound inside seated several leads sign
  refine ⟨gone.id, survivor.id, _, _, ran, ?_, ?_, ?_, edits_of_severed sound inside grown severed⟩
  · rw [seats_of_mem sound inside]
    exact grown.fills (sound.rings host inside)
  · exact (Cell.handleAt_seats _ _ _).mpr ⟨gone, severed.seated, rfl⟩
  · exact (Cell.handleAt_seats _ _ _).mpr ⟨survivor, survives, rfl⟩

/-- The last member of a ring takes the ring with it. -/
theorem edits_deleteAlong_last (seated : host.Seats index member) (last : host.value = 1)
    (step : CellId → StoreM CellId) :
    ∃ after, deleteAlong step member.id store = .ok host.id after ∧
      Edits store after host.id 0 [] (store.branch member.id) := by
  have fits := sound.rings host inside
  have child := seated.member fits
  have alone : host.ring.members = [member] := by
    have bounded := Ring.Fits.size_le fits
    rw [Ring.size_eq_length_members, last] at bounded
    have one : host.ring.members.length = 1 := by
      have some := List.length_pos_of_mem child
      have places : (1 : Num).places = 1 := rfl
      omega
    obtain ⟨only, same⟩ := List.length_eq_one_iff.mp one
    rw [same, List.mem_singleton] at child
    rw [same, child]
  have branch : store.branch member.id = member.ids := by
    rw [Store.branch, cell?_of_mem sound.distinct (member_mem_nodes inside child)]
    rfl
  have bare : (host.withRing 0 Ring.empty).seats = [] := rfl
  rw [← bare, branch]
  refine ⟨_, run_deleteAlong_last sound inside seated last step,
    edits_of_replace sound inside (sound.clear inside 0) ?_ ?_⟩
  · intro other ofRing
    simp [Ring.empty, Ring.members] at ofRing
  · intro id _
    rw [alone]
    simp [Ring.empty, Ring.members]

section Graft

variable {branch : Cell} (isTop : branch ∈ store.trees) (apart : host.id ∉ branch.ids) {wide ring : Ring Cell}
  {between : Pool} (grown : host.Grown wide store.pool between)
  (grafted : Grafted (host.withRing host.value wide) branch ring)

include isTop apart grown grafted

theorem contains_graft (id : CellId) (before : store.contains id = true) :
    ((store.uprooted branch.id).replace host.id (host.value + 1) ring between).contains id = true := by
  have uprooting := Cell.ForestSound.uproot sound isTop
  have present : host ∈ (store.uprooted branch.id).nodes :=
    (mem_nodes_uprooted sound isTop host).mpr ⟨inside, apart⟩
  obtain ⟨fresh, members, _⟩ := grown.extra
  have counts : ((store.uprooted branch.id).replace host.id (host.value + 1) ring between).ids.count id +
      (Cell.forestIds host.ring.members).count id =
        (Cell.forestIds (Cell.without branch.id store.trees)).count id +
          (Cell.forestIds ring.members).count id :=
    Cell.count_forestReplace uprooting.distinct _ _ id present
  have split := (Cell.forestIds_perm
    (Cell.perm_without (Cell.ForestSound.tops_distinct sound) isTop)).count_eq id
  have grafts := (Cell.forestIds_perm grafted.members).count_eq id
  have grows := (Cell.forestIds_perm members).count_eq id
  rw [Cell.forestIds_cons, List.count_append] at split grafts
  rw [Cell.forestIds_append, List.count_append] at grows
  rw [Cell.ring_withRing] at grafts
  rw [contains_iff] at before ⊢
  have first : 0 < (Cell.forestIds store.trees).count id := List.count_pos_iff.mpr before
  apply List.count_pos_iff.mp
  omega

/-- A graft shows in the cell it is made in, and nowhere else. -/
theorem content?_graft (id : CellId) (before : store.contains id = true) :
    ((store.uprooted branch.id).replace host.id (host.value + 1) ring between).content? id =
      store.shown? host.id (host.withRing (host.value + 1) ring).content id := by
  have result := sound.graft inside isTop apart grown grafted
  have uprooting := Cell.ForestSound.uproot sound isTop
  have distinct : (store.uprooted branch.id).ids.Nodup := uprooting.distinct
  have present : host ∈ (store.uprooted branch.id).nodes :=
    (mem_nodes_uprooted sound isTop host).mpr ⟨inside, apart⟩
  have still := contains_graft sound inside isTop apart grown grafted id before
  obtain ⟨node, nodeInside, same⟩ := (Cell.mem_forestIds _ _).mp ((contains_iff id).mp before)
  subst same
  by_cases below : node.id ∈ branch.ids
  · -- The grafted tree is what it was, and does not hold the cell it is grafted into.
    obtain ⟨other, lies, equal⟩ := (Cell.mem_ids _ _).mp below
    have otherInside : other ∈ store.nodes := (Cell.mem_forestNodes _ _).mpr ⟨branch, isTop, lies⟩
    have this := node_unique sound.distinct otherInside nodeInside equal
    subst this
    have member : branch ∈ ring.members := grafted.members.mem_iff.mpr List.mem_cons_self
    have after : other ∈ ((store.uprooted branch.id).replace host.id (host.value + 1) ring between).nodes :=
      (mem_nodes_replace distinct present _ _ _ other).mpr (Or.inr (Or.inl ⟨branch, member, lies⟩))
    have notAbove : host.id ∉ other.ids := by
      intro above
      obtain ⟨inner, innerLies, innerSame⟩ := (Cell.mem_ids _ _).mp above
      exact apart ((Cell.mem_ids _ _).mpr ⟨inner, Cell.nodes_subset branch other lies inner innerLies, innerSame⟩)
    rw [content?, cell?_of_mem result.distinct after, shown?, cell?_of_mem sound.distinct nodeInside]
    simp [Cell.showing_of_not_mem _ _ _ notAbove]
  · have stays : node ∈ (store.uprooted branch.id).nodes :=
      (mem_nodes_uprooted sound isTop node).mpr ⟨nodeInside, below⟩
    have within : ∀ other, other ∈ (store.uprooted branch.id).ids → other ∈ store.ids ∧ other ∉ branch.ids := by
      intro other listed
      obtain ⟨cell, cellInside, cellSame⟩ := (Cell.mem_forestIds _ _).mp listed
      obtain ⟨wasThere, outside⟩ := (mem_nodes_uprooted sound isTop cell).mp cellInside
      rw [← cellSame]
      exact ⟨(Cell.mem_forestIds _ _).mpr ⟨cell, wasThere, rfl⟩, outside⟩
    have shows := content?_replace distinct present result.distinct (fun member ofRing => ?_) node.id
      (contains_of_mem stays) still
    · rw [shows, shown?, shown?, cell?_of_mem distinct stays, cell?_of_mem sound.distinct nodeInside]
    · rcases List.mem_cons.mp (grafted.members.mem_iff.mp ofRing) with new | old
      · right
        intro other own listed
        rw [new] at own
        exact (within other listed).2 own
      · rcases fresh_not_mem sound grown old with kept | fresh
        · exact Or.inl kept
        · right
          intro other own listed
          exact fresh other own (within other listed).1

end Graft

/-- What a graft does to the list it enters, and to the rest. -/
theorem edits_insertChild {branch : Cell} (isTop : branch ∈ store.trees) (apart : host.id ∉ branch.ids)
    (nonnegative : 0 ≤ host.value.toInt) (room : host.value.toInt < Num.greatest) :
    ∃ after filled, insertChild host.id branch.id store = .ok () after ∧
      Fills (store.seats host.id) filled ∧
      Edits store after host.id (host.value + 1) (filled ++ [⟨some branch.id, branch.content⟩]) [] := by
  obtain ⟨wide, between, ran, grown, entered⟩ := run_insertChild sound inside isTop apart nonnegative
  have fits : (host.withRing host.value wide).Fits := grown.fits
  have grafted : Grafted (host.withRing host.value wide) branch
      (graftedRing (host.withRing host.value wide) branch) :=
    grafted_graftedRing fits nonnegative room entered
  have result := sound.graft inside isTop apart grown grafted
  have uprooting := Cell.ForestSound.uproot sound isTop
  have distinct : (store.uprooted branch.id).ids.Nodup := uprooting.distinct
  have present : host ∈ (store.uprooted branch.id).nodes :=
    (mem_nodes_uprooted sound isTop host).mpr ⟨inside, apart⟩
  have found := cell?_replace distinct present result.distinct
  have appended : (host.withRing (host.value + 1) (graftedRing (host.withRing host.value wide) branch)).seats =
      (host.withRing host.value wide).seats ++ [⟨some branch.id, branch.content⟩] := by
    have roster := grafted.roster
    rw [Cell.value_withRing] at roster
    rw [Cell.seats, Cell.value_withRing, Cell.ring_withRing, roster, List.map_append]
    rfl
  refine ⟨_, (host.withRing host.value wide).seats, ran, ?_, (wellFormed_iff_sound _).mpr result, ?_, ?_, ?_, ?_⟩
  · rw [seats_of_mem sound inside]
    exact grown.fills (sound.rings host inside)
  · rw [value?, found]
    rfl
  · rw [seats, found]
    exact appended
  · intro id before
    simp [contains_graft sound inside isTop apart grown grafted id before]
  · intro id before _
    rw [content?_graft sound inside isTop apart grown grafted id before, Cell.content_eq, appended]
    rfl

end Refinements

/-- What the operations on one member of a ring do to the list of all children, where `index` is its own. -/
structure RingLaws (store : Store) (parent : CellId) (size : Num) (cell : CellId) (index : Nat) : Prop where
  inside : index < size.places
  prev : Steps store (prev cell) parent (Ring.turn size.places index (-1))
  next : Steps store (next cell) parent (Ring.turn size.places index 1)
  shiftBack : ∀ count : Num,
    Steps store (shiftBack cell count) parent (Ring.turn size.places index (-count.toInt))
  shiftForward : ∀ count : Num,
    Steps store (shiftForward cell count) parent (Ring.turn size.places index count.toInt)
  makeFirst : ∃ after, makeFirst cell store = .ok () after ∧
    Edits store after parent size ((store.seats parent).rotate index) []
  insertBefore : ∀ value, size.toInt < Num.greatest →
    Inserts store (insertBefore cell value) parent size (if index = 0 then size.places else index) value
  insertAfter : ∀ value, size.toInt < Num.greatest →
    Inserts store (insertAfter cell value) parent size (index + 1) value
  deleteBefore : size ≠ 1 → Deletes store (deleteBefore cell) parent size
    (Ring.turn size.places index (-1)) (Ring.turn size.places index (-2))
  deleteAfter : size ≠ 1 → Deletes store (deleteAfter cell) parent size
    (Ring.turn size.places index 1) (Ring.turn size.places index 2)
  deleteLast : size = 1 → ∀ delete ∈ [Store.deleteBefore, Store.deleteAfter], ∃ after,
    delete cell store = .ok parent after ∧ Edits store after parent 0 [] (store.branch cell)

theorem mem_nodes_of_value? {store : Store} {id : CellId} {value : Num} (found : store.value? id = some value) :
    ∃ cell ∈ store.nodes, cell.id = id ∧ cell.value = value := by
  obtain ⟨cell, present, valued⟩ := Option.map_eq_some_iff.mp found
  have ⟨inside, same⟩ := mem_nodes_of_cell? present
  exact ⟨cell, inside, same, valued⟩

theorem ringLaws_of_seat {store : Store} (sound : store.Sound) {host member : Cell} {index : Nat}
    (inside : host ∈ store.nodes) (seated : host.Seats index member) :
    RingLaws store host.id host.value member.id index where
  inside := (value_pos_of_seat sound inside seated).2
  prev := strides_prev.steps sound inside seated
  next := strides_next.steps sound inside seated
  shiftBack count := (strides_shiftBack count).steps sound inside seated
  shiftForward count := (strides_shiftForward count).steps sound inside seated
  makeFirst := edits_makeFirst sound inside seated
  insertBefore := inserts_insertBefore sound inside seated
  insertAfter := inserts_insertAfter sound inside seated
  deleteBefore several := deletes_deleteAlong sound inside seated several strides_prev (Or.inr rfl)
  deleteAfter several := deletes_deleteAlong sound inside seated several strides_next (Or.inl rfl)
  deleteLast last := by
    intro delete listed
    rcases List.mem_cons.mp listed with same | listed
    · rw [same]
      exact edits_deleteAlong_last sound inside seated last prev
    · rw [List.mem_singleton.mp listed]
      exact edits_deleteAlong_last sound inside seated last next

/--
A store with rings that are partly materialised behaves like one in which every child is there: a cell of
value `n` shows a list of `n` children, and each operation on its ring is one on that list.
-/
theorem rings_refine_lists (store : Store) (formed : store.WellFormed) :
    (∀ parent size, store.value? parent = some size → (store.seats parent).length = size.places) ∧
    (∀ parent size, store.value? parent = some size → 0 < size.toInt →
      Steps store (child parent) parent 0) ∧
    (∀ parent size cell index, store.value? parent = some size →
      handleAt (store.seats parent) index = some cell → RingLaws store parent size cell index) ∧
    (∀ parent size top content, store.value? parent = some size → 0 ≤ size.toInt →
      size.toInt < Num.greatest → store.content? top = some content → store.parentLink top = none →
      parent ∉ store.branch top →
      ∃ after filled, insertChild parent top store = .ok () after ∧ Fills (store.seats parent) filled ∧
        Edits store after parent (size + 1) (filled ++ [⟨some top, content⟩]) []) := by
  have sound := (wellFormed_iff_sound store).mp formed
  refine ⟨?_, ?_, ?_, ?_⟩
  · intro parent size valued
    obtain ⟨host, inside, rfl, rfl⟩ := mem_nodes_of_value? valued
    rw [seats_of_mem sound inside, Cell.seats, List.length_map]
    exact Ring.length_roster _ _ (Ring.Fits.size_le (sound.rings host inside))
  · intro parent size valued positive
    obtain ⟨host, inside, rfl, rfl⟩ := mem_nodes_of_value? valued
    apply steps_child sound inside
    unfold Num.places
    omega
  · intro parent size cell index valued seated
    obtain ⟨host, inside, rfl, rfl⟩ := mem_nodes_of_value? valued
    rw [seats_of_mem sound inside, Cell.handleAt_seats] at seated
    obtain ⟨member, seat, rfl⟩ := seated
    exact ringLaws_of_seat sound inside seat
  · intro parent size top content valued nonnegative room shown isTop apart
    obtain ⟨host, inside, rfl, rfl⟩ := mem_nodes_of_value? valued
    obtain ⟨branch, present, rfl⟩ := Option.map_eq_some_iff.mp shown
    obtain ⟨branchInside, same⟩ := mem_nodes_of_cell? present
    subst same
    rw [Store.branch, present] at apart
    have top := (mem_trees_iff sound branchInside).mpr (Option.map_eq_none_iff.mp isTop)
    exact edits_insertChild sound inside top apart nonnegative room

/-- A ring of four of which the anchor and the child before it are materialised. -/
def openRing : Store :=
  Deed.performAll (fun _ => Store.empty) [⟨0, .alloc 4⟩, ⟨0, .child ⟨0⟩⟩, ⟨0, .prev ⟨1⟩⟩] 0

theorem rings_refine_lists_openRing :
    openRing.WellFormed ∧ openRing.value? ⟨0⟩ = some 4 ∧ handleAt (openRing.seats ⟨0⟩) 3 = some ⟨2⟩ ∧
      RingLaws openRing ⟨0⟩ 4 ⟨2⟩ 3 := by
  have formed : openRing.WellFormed :=
    (wellFormed_iff_sound _).mpr (Deed.sound_performAll (fun _ => sound_empty) _ (by decide +kernel) 0)
  have valued : openRing.value? ⟨0⟩ = some 4 := by decide +kernel
  have seated : handleAt (openRing.seats ⟨0⟩) 3 = some ⟨2⟩ := by decide +kernel
  exact ⟨formed, valued, seated, (rings_refine_lists openRing formed).2.2.1 _ _ _ _ valued seated⟩

end Store

end RingTape
