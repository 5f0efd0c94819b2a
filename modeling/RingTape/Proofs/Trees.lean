import RingTape.Proofs.Edit

/-!
Whole trees: planting and discarding them, grafting one into a ring, copying one over a cell, and handing the
children of one cell over to another. In the middle of such an operation the pool and the forest disagree
about some slots; `Cell.ForestSound` is stated for any account of the slots for that reason.
-/

namespace RingTape

set_option autoImplicit false

namespace Cell

theorem top_or_child (cells : List Cell) (node : Cell) (inside : node ∈ forestNodes cells) :
    node ∈ cells ∨ ∃ parent ∈ forestNodes cells, node ∈ parent.ring.members := by
  have tree (top : Cell) : ∀ node ∈ top.nodes, node = top ∨ ∃ parent ∈ top.nodes, node ∈ parent.ring.members := by
    induction top using treeInduction with
    | step top induction =>
        intro node inside
        rw [nodes_eq, List.mem_cons, List.mem_flatMap] at inside
        rcases inside with same | ⟨child, ofRing, below⟩
        · exact Or.inl same
        · right
          rcases induction child ofRing node below with same | ⟨parent, further, member⟩
          · exact ⟨top, mem_nodes_self top, by rw [same]; exact ofRing⟩
          · exact ⟨parent, mem_nodes_of_member top child parent ofRing further, member⟩
  obtain ⟨top, isTop, below⟩ := (mem_forestNodes cells node).mp inside
  rcases tree top node below with same | ⟨parent, further, member⟩
  · exact Or.inl (by rw [same]; exact isTop)
  · exact Or.inr ⟨parent, (mem_forestNodes cells parent).mpr ⟨top, isTop, further⟩, member⟩

theorem find?_isSome_iff (cell : Cell) (id : CellId) :
    (cell.find? fun below => below.id = id).isSome = true ↔ id ∈ cell.ids := by
  rw [find?_eq, List.find?_isSome, mem_ids]
  simp

/-- The forest without the tree that starts in the given slot. -/
def without (id : CellId) (cells : List Cell) : List Cell :=
  cells.filter fun tree => tree.id ≠ id

theorem perm_without {cells : List Cell} (distinct : (cells.map Cell.id).Nodup) {top : Cell}
    (isTop : top ∈ cells) : cells.Perm (top :: without top.id cells) := by
  induction cells with
  | nil => simp at isTop
  | cons first rest induction =>
      rw [List.map_cons, List.nodup_cons] at distinct
      rcases List.mem_cons.mp isTop with same | later
      · subst same
        have others : without top.id rest = rest := by
          apply List.filter_eq_self.mpr
          intro other member
          have different : other.id ≠ top.id := fun equal =>
            distinct.1 (List.mem_map.mpr ⟨other, member, equal⟩)
          simp [different]
        have kept : without top.id (top :: rest) = rest := by
          rw [without, List.filter_cons_of_neg (by simp)]
          exact others
        rw [kept]
      · have different : first.id ≠ top.id := fun equal =>
          distinct.1 (List.mem_map.mpr ⟨top, later, equal.symm⟩)
        have kept : without top.id (first :: rest) = first :: without top.id rest := by
          simp [without, different]
        rw [kept]
        exact ((induction distinct.2 later).cons first).trans (List.Perm.swap _ _ _)

theorem ForestSound.tops_distinct {cells : List Cell} {usage : CellId → Int} (sound : ForestSound cells usage) :
    (cells.map Cell.id).Nodup :=
  (List.nodup_append.mp ((forestIds_perm_children cells).nodup_iff.mp sound.distinct)).1

/-- A sound forest without one of its trees accounts for all slots but those of the tree. -/
theorem ForestSound.uproot {cells : List Cell} {usage : CellId → Int} (sound : ForestSound cells usage)
    {top : Cell} (isTop : top ∈ cells) :
    ForestSound (without top.id cells) fun id => usage id - top.ids.count id := by
  have split := forestIds_perm (perm_without sound.tops_distinct isTop)
  refine ⟨?_, ?_, ?_⟩
  · intro id
    have count := split.count_eq id
    have used := sound.slots id
    rw [forestIds_cons, List.count_append] at count
    omega
  · intro id
    have most := sound.once id
    omega
  · intro node inside
    obtain ⟨tree, member, below⟩ := (mem_forestNodes _ _).mp inside
    exact sound.rings node ((mem_forestNodes _ _).mpr ⟨tree, List.mem_of_mem_filter member, below⟩)

end Cell

/-- In front of the anchor is the end of the roster, also when there is no anchor yet. -/
theorem Ring.insertAt_anchor {α : Type} {value later : Num} {ring : Ring α} (fits : ring.Fits value)
    (grown : later.places = value.places + 1) (entered : value.places = 0 ∨ 0 < ring.size) (member : α) :
    ((ring.insertAt ring.anchor member).settle later).Fits later ∧
      ((ring.insertAt ring.anchor member).settle later).roster later = ring.roster value ++ [some member] ∧
      ((ring.insertAt ring.anchor member).settle later).members.Perm (member :: ring.members) := by
  have bounded := fits.size_le
  have anchorBound : ring.anchor ≤ ring.size := by simp [anchor, size]
  have members := (members_settle_perm later _).trans (members_insertAt_perm ring ring.anchor member anchorBound)
  by_cases bare : ring.size = 0
  · have empty : ring = Ring.empty := by
      rcases ring with ⟨forward, backward⟩
      simp only [size] at bare
      rw [List.eq_nil_of_length_eq_zero (show forward.length = 0 by omega),
        List.eq_nil_of_length_eq_zero (show backward.length = 0 by omega)]
      rfl
    have single : later.places = 1 := by omega
    have none : value.places = 0 := by omega
    subst empty
    have alone : ((Ring.empty : Ring α).insertAt (Ring.empty : Ring α).anchor member).settle later =
        Ring.single member := settle_insertAt_empty single member
    refine ⟨?_, ?_, members⟩
    · rw [alone]
      unfold Num.places at single
      refine ⟨fun _ => rfl, ?_, fun _ => rfl⟩
      simp only [Ring.single, size, List.length_cons, List.length_nil]
      omega
    · rw [alone]
      simp [roster, Ring.single, Ring.empty, size, single, none]
  · have less := anchor_lt_size fits (by omega)
    obtain ⟨first, there⟩ : ∃ first, ring.line[ring.anchor]? = some first := by
      rw [size_eq_length_line] at less
      exact ⟨_, List.getElem?_eq_getElem less⟩
    have place : ring.placeAt value 0 = ring.anchor := by
      unfold placeAt
      rw [Nat.zero_add, if_pos (by omega)]
    have seated : (ring.roster value)[0]? = some (some first) := by
      rw [getElem?_roster_eq_some_iff value ring bounded, place]
      exact ⟨by omega, there⟩
    have inserted := roster_insertAt fits grown seated member
    rw [place, if_pos rfl, ← length_roster value ring bounded, List.insertIdx_length_self] at inserted
    refine ⟨fits_insertAt fits grown (by omega) anchorBound member, ?_, members⟩
    rw [roster_settle, inserted]

namespace Store

section Tops

variable {store : Store} (sound : store.Sound)

include sound

/-- The cells without a parent are the tops of the trees. -/
theorem mem_trees_iff {node : Cell} (inside : node ∈ store.nodes) :
    node ∈ store.trees ↔ store.parent? node.id = none := by
  have spread := (Cell.forestIds_perm_children store.trees).nodup_iff.mp sound.distinct
  constructor
  · intro isTop
    rw [parent?_eq_none_iff]
    intro parent parentInside child
    exact (List.nodup_append.mp spread).2.2 node.id (List.mem_map.mpr ⟨node, isTop, rfl⟩) node.id
      (List.mem_flatMap.mpr ⟨parent, parentInside, child⟩) rfl
  · intro none
    rw [parent?_eq_none_iff] at none
    rcases Cell.top_or_child store.trees node inside with isTop | ⟨parent, parentInside, member⟩
    · exact isTop
    · exact absurd (List.mem_map.mpr ⟨node, member, rfl⟩) (none parent parentInside)

theorem run_isTop {node : Cell} (inside : node ∈ store.nodes) :
    isTop node.id store = .ok (store.parent? node.id).isNone store := by
  rw [isTop, run_bind_ok (run_cell_of_some (cell?_of_mem sound.distinct inside))]
  rfl

theorem run_isAncestor {above below : Cell} (aboveInside : above ∈ store.nodes)
    (belowInside : below ∈ store.nodes) :
    isAncestor above.id below.id store = .ok (decide (below.id ∈ above.ids)) store := by
  rw [isAncestor]
  by_cases same : above.id = below.id
  · have itself : below.id ∈ above.ids := (Cell.mem_ids _ _).mpr ⟨above, Cell.mem_nodes_self above, same⟩
    simp only [same, if_true, itself, decide_true]
    rfl
  · have found := cell?_of_mem sound.distinct aboveInside
    have ran := run_cell_of_some (cell?_of_mem sound.distinct belowInside)
    have decided : (above.find? fun cell => cell.id = below.id).isSome = decide (below.id ∈ above.ids) := by
      rw [Bool.eq_iff_iff, Cell.find?_isSome_iff, decide_eq_true_iff]
    simp only [same, if_false]
    rw [run_bind_ok ran]
    rw [run_bind_ok (run_get store), found]
    simp only [decided]
    rfl

theorem mem_nodes_replace_of_apart {host node : Cell} (inside : host ∈ store.nodes) (present : node ∈ store.nodes)
    (notBelow : node.id ∉ host.ids) (notAbove : host.id ∉ node.ids) (value : Num) (ring : Ring Cell)
    (pool : Pool) : node ∈ (store.replace host.id value ring pool).nodes := by
  apply (mem_nodes_replace sound.distinct inside value ring pool node).mpr
  exact Or.inr (Or.inr ⟨node, present, notBelow, (Cell.amend_of_not_mem _ _ node notAbove).symm⟩)

end Tops

theorem sound_plant {store : Store} (sound : store.Sound) (value : Num) : (store.plant value).2.Sound := by
  refine ⟨?_, Pool.usage_le_one _, ?_⟩
  · intro id
    have used := sound.slots id
    have taken := Pool.usage_take store.pool id
    simp only [plant, Cell.forestIds_cons, Cell.ids_leaf, List.count_append]
    omega
  · intro node inside
    simp only [plant, Cell.forestNodes, List.mem_append] at inside
    rcases inside with fresh | old
    · exact Cell.fits_leaf _ _ node fresh
    · exact sound.rings node old

theorem forestIds_byteLeaves (ids : List CellId) (bytes : List UInt8) (same : ids.length = bytes.length) :
    Cell.forestIds (List.zipWith (fun child byte => Cell.leaf child (Num.ofByte byte)) ids bytes) = ids := by
  induction ids generalizing bytes with
  | nil => simp
  | cons id rest induction =>
      cases bytes with
      | nil => simp at same
      | cons byte others =>
          have further := induction others (by simpa using same)
          simp [further, Cell.ids_leaf]

theorem slots_plantBytes {store : Store} (sound : store.Sound) (bytes : List UInt8) (id : CellId) :
    ((store.plantBytes bytes).2.ids.count id : Int) = (store.plantBytes bytes).2.pool.usage id := by
  have lengths := Pool.length_takeMany bytes.length store.pool.take.2
  have leaves := forestIds_byteLeaves (store.pool.take.2.takeMany bytes.length).1 bytes lengths
  have used := sound.slots id
  have taken := Pool.usage_take store.pool id
  have many := Pool.usage_takeMany bytes.length store.pool.take.2 id
  simp only [plantBytes, ids, Cell.forestIds_cons, Cell.ids_eq, Ring.members, List.append_nil, leaves,
    List.count_append, List.count_cons, List.count_nil] at taken ⊢
  split_ifs at taken ⊢ <;> push_cast at taken ⊢ <;> omega

theorem sound_plantBytes {store : Store} (sound : store.Sound) (bytes : List UInt8)
    (short : bytes.length < 2 ^ 63) : (store.plantBytes bytes).2.Sound := by
  have lengths := Pool.length_takeMany bytes.length store.pool.take.2
  have size : (Int64.ofNat bytes.length).toInt = bytes.length := Int64.toInt_ofNat_of_lt short
  refine ⟨slots_plantBytes sound bytes, Pool.usage_le_one _, ?_⟩
  intro node inside
  simp only [plantBytes, Cell.forestNodes, List.mem_append] at inside
  rcases inside with new | old
  · rw [Cell.nodes_eq, List.mem_cons, List.mem_flatMap] at new
    rcases new with same | ⟨child, ofRing, below⟩
    · rw [same]
      refine ⟨fun _ => rfl, ?_, fun _ => rfl⟩
      simp only [Ring.size, List.length_zipWith, lengths, size, List.length_nil]
      omega
    · simp only [Ring.members, List.append_nil, List.mem_iff_getElem, List.getElem_zipWith] at ofRing
      obtain ⟨place, _, leaf⟩ := ofRing
      rw [← leaf] at below
      exact Cell.fits_leaf _ _ node below
  · exact sound.rings node old

theorem run_discard {store : Store} (sound : store.Sound) {top : Cell} (isTop : top ∈ store.trees) :
    discard top.id store =
      .ok () ⟨Cell.without top.id store.trees, store.pool.give (top.id :: top.descendants)⟩ := by
  have inside := tree_mem_nodes isTop
  have noParent := (mem_trees_iff sound inside).mp isTop
  rw [discard, run_bind_ok (run_cell_of_some (cell?_of_mem sound.distinct inside)),
    run_bind_ok (run_isTop sound inside), noParent]
  rfl

theorem run_discard_attached {store : Store} (sound : store.Sound) {node parent : Cell} (inside : node ∈ store.nodes)
    (found : store.parent? node.id = some parent) : discard node.id store = .error (.attached node.id) store := by
  rw [discard, run_bind_ok (run_cell_of_some (cell?_of_mem sound.distinct inside)),
    run_bind_ok (run_isTop sound inside), found]
  rfl

theorem sound_discard {store : Store} (sound : store.Sound) {top : Cell} (isTop : top ∈ store.trees) :
    Sound ⟨Cell.without top.id store.trees, store.pool.give (top.id :: top.descendants)⟩ := by
  have uprooted := Cell.ForestSound.uproot sound isTop
  refine ⟨?_, Pool.usage_le_one _, uprooted.rings⟩
  intro id
  have given := ((Cell.descendants_perm top).cons top.id).count_eq id
  rw [← Cell.ids_eq] at given
  rw [uprooted.slots id, Pool.usage_give, given]

/-- The store without the tree that starts in the given slot, which keeps its slots. -/
def uprooted (store : Store) (id : CellId) : Store :=
  ⟨Cell.without id store.trees, store.pool⟩

theorem uprooted_replace (store : Store) (top id : CellId) (value : Num) (ring : Ring Cell) (pool : Pool) :
    (store.replace id value ring pool).uprooted top = (store.uprooted top).replace id value ring pool := by
  have commute (cells : List Cell) : Cell.without top (Cell.forestReplace id value ring cells) =
      Cell.forestReplace id value ring (Cell.without top cells) := by
    simp only [Cell.forestReplace, Cell.forestAmend_eq, Cell.without, List.filter_map]
    congr 1
    apply List.filter_congr
    intro tree _
    simp [Cell.id_amend id (Cell.withRing value ring) tree fun _ => rfl]
  simp only [uprooted, replace, commute]

theorem mem_trees_replace {store : Store} {top : Cell} (isTop : top ∈ store.trees) {id : CellId}
    (apart : id ∉ top.ids) (value : Num) (ring : Ring Cell) (pool : Pool) :
    top ∈ (store.replace id value ring pool).trees := by
  simp only [replace, Cell.forestReplace, Cell.forestAmend_eq]
  exact List.mem_map.mpr ⟨top, isTop, Cell.amend_of_not_mem _ _ top apart⟩

theorem mem_nodes_uprooted {store : Store} (sound : store.Sound) {top : Cell} (isTop : top ∈ store.trees)
    (node : Cell) : node ∈ (store.uprooted top.id).nodes ↔ node ∈ store.nodes ∧ node.id ∉ top.ids := by
  have split := Cell.perm_without (Cell.ForestSound.tops_distinct sound) isTop
  have distinct := (Cell.forestIds_perm split).nodup_iff.mp sound.distinct
  rw [Cell.forestIds_cons, List.nodup_append] at distinct
  have spread : node ∈ store.nodes ↔ node ∈ top.nodes ∨ node ∈ (store.uprooted top.id).nodes := by
    simp only [nodes, uprooted, Cell.mem_forestNodes, split.mem_iff, List.mem_cons, exists_eq_or_imp]
  rw [spread]
  constructor
  · intro inside
    refine ⟨Or.inr inside, ?_⟩
    intro below
    exact distinct.2.2 node.id below node.id ((Cell.mem_forestIds _ _).mpr ⟨node, inside, rfl⟩) rfl
  · rintro ⟨below | inside, outside⟩
    · exact absurd ((Cell.mem_ids _ _).mpr ⟨node, below, rfl⟩) outside
    · exact inside

/-- The two steps that make sure of the place just before the anchor. -/
theorem run_enter {store : Store} (sound : store.Sound) {host : Cell} (inside : host ∈ store.nodes)
    (positive : 0 < host.value.places) :
    ∃ (wide : Ring Cell) (between : Pool) (anchor last : CellId) (middle : Store),
      child host.id store = .ok anchor middle ∧
        prev anchor middle = .ok last (store.replace host.id host.value wide between) ∧
        host.Grown wide store.pool between ∧ 0 < wide.size := by
  obtain ⟨anchor, near, pool, entered, grown, seated⟩ := run_child sound inside positive
  have present := host_mem_replace sound.distinct inside host.value near pool
  obtain ⟨last, wide, between, stepped, wider, there⟩ := strides_prev
    (store.replace host.id host.value near pool) (host.withRing host.value near) anchor 0
    (sound.grow inside grown) present seated
  rw [Cell.id_withRing, Cell.value_withRing, replace_replace] at stepped
  refine ⟨wide, between, anchor.id, last.id, _, entered, stepped, grown.trans (sound.rings host inside) wider, ?_⟩
  · have ⟨_, less, _⟩ := Ring.placeAt_lt_of_mem wider.fits.size_le there
    omega

/-- What a grafted tree does to the ring it enters: it comes last. -/
structure Grafted (host branch : Cell) (ring : Ring Cell) : Prop where
  fits : ring.Fits (host.value + 1)
  roster : ring.roster (host.value + 1) = host.ring.roster host.value ++ [some branch]
  members : ring.members.Perm (branch :: host.ring.members)

/-- The ring of a cell with a tree put in front of its anchor. -/
def graftedRing (host branch : Cell) : Ring Cell :=
  (host.ring.insertAt host.ring.anchor branch).settle (host.value + 1)

theorem grafted_graftedRing {host branch : Cell} (fits : host.Fits) (nonnegative : 0 ≤ host.value.toInt)
    (room : host.value.toInt < Num.greatest) (entered : host.value.places = 0 ∨ 0 < host.ring.size) :
    Grafted host branch (graftedRing host branch) := by
  have larger := Num.places_add_one nonnegative room
  have ⟨graftFits, roster, members⟩ := Ring.insertAt_anchor fits larger entered branch
  exact ⟨graftFits, roster, members⟩

theorem run_graft {store : Store} (sound : store.Sound) {host branch : Cell} (inside : host ∈ store.nodes)
    (isTop : branch ∈ store.trees) (apart : host.id ∉ branch.ids) :
    (do
        let parent ← cell host.id
        uproot branch.id
        install host.id (parent.value + 1) (parent.ring.insertAt parent.ring.anchor branch) : StoreM Unit)
      store =
        .ok () ((store.uprooted branch.id).replace host.id (host.value + 1) (graftedRing host branch)
          store.pool) := by
  have uprooting := Cell.ForestSound.uproot sound isTop
  have present : host ∈ (store.uprooted branch.id).nodes :=
    (mem_nodes_uprooted sound isTop host).mpr ⟨inside, apart⟩
  have run : uproot branch.id store = .ok () (store.uprooted branch.id) := rfl
  have distinct : (store.uprooted branch.id).ids.Nodup := uprooting.distinct
  rw [run_bind_ok (run_cell_of_some (cell?_of_mem sound.distinct inside)), run_bind_ok run]
  exact run_install distinct present _ _

theorem sound_graft {store : Store} (sound : store.Sound) {host branch : Cell} (inside : host ∈ store.nodes)
    (isTop : branch ∈ store.trees) (apart : host.id ∉ branch.ids) {ring : Ring Cell}
    (grafted : Grafted host branch ring) :
    ((store.uprooted branch.id).replace host.id (host.value + 1) ring store.pool).Sound := by
  have uprooting := Cell.ForestSound.uproot sound isTop
  have present : host ∈ (store.uprooted branch.id).nodes :=
    (mem_nodes_uprooted sound isTop host).mpr ⟨inside, apart⟩
  refine Cell.ForestSound.replace _ _ uprooting present grafted.fits ?_ ?_ (Pool.usage_le_one _)
  · intro member ofRing node below
    rcases List.mem_cons.mp (grafted.members.mem_iff.mp ofRing) with same | child
    · rw [same] at below
      exact sound.rings node ((Cell.mem_forestNodes _ _).mpr ⟨branch, isTop, below⟩)
    · exact sound.rings node (Cell.forestNodes_subset _ _ (member_mem_nodes inside child) _ below)
  · intro id
    have count := (Cell.forestIds_perm grafted.members).count_eq id
    rw [Cell.forestIds_cons, List.count_append] at count
    rw [pool_replace]
    omega

section Refusals

variable {store : Store} (sound : store.Sound) {host branch : Cell} (inside : host ∈ store.nodes)

include sound

/-- The first check of a graft: only a whole tree can be put in. -/
theorem run_insertChild_attached {owner : Cell} (branchInside : branch ∈ store.nodes)
    (found : store.parent? branch.id = some owner) (parent : CellId) :
    insertChild parent branch.id store = .error (.attached branch.id) store := by
  rw [insertChild, run_bind_ok (run_cell_of_some (cell?_of_mem sound.distinct branchInside)),
    run_bind_ok (run_isTop sound branchInside), found]
  rfl

include inside

/-- The second check: a tree is not put into itself. -/
theorem run_insertChild_overlap (isTop : branch ∈ store.trees) (below : host.id ∈ branch.ids) :
    insertChild host.id branch.id store = .error (.overlap host.id branch.id) store := by
  have branchInside := tree_mem_nodes isTop
  have noParent := (mem_trees_iff sound branchInside).mp isTop
  rw [insertChild, run_bind_ok (run_cell_of_some (cell?_of_mem sound.distinct branchInside)),
    run_bind_ok (run_isTop sound branchInside), noParent]
  simp only [Option.isNone_none, Bool.not_true, Bool.false_eq_true, if_false]
  rw [run_bind_ok (run_isAncestor sound branchInside inside)]
  simp only [below, decide_true, if_true]
  rfl

/-- The third check: a cell of negative value has no ring. -/
theorem run_insertChild_barren (isTop : branch ∈ store.trees) (apart : host.id ∉ branch.ids)
    (negative : host.value < 0) :
    insertChild host.id branch.id store = .error (.barren host.id host.value) store := by
  have branchInside := tree_mem_nodes isTop
  have noParent := (mem_trees_iff sound branchInside).mp isTop
  rw [insertChild, run_bind_ok (run_cell_of_some (cell?_of_mem sound.distinct branchInside)),
    run_bind_ok (run_isTop sound branchInside), noParent]
  simp only [Option.isNone_none, Bool.not_true, Bool.false_eq_true, if_false]
  rw [run_bind_ok (run_isAncestor sound branchInside inside)]
  simp only [apart, decide_false, Bool.false_eq_true, if_false]
  rw [run_bind_ok (run_cell_of_some (cell?_of_mem sound.distinct inside))]
  simp only [negative, if_true]
  rfl

end Refusals

theorem run_insertChild {store : Store} (sound : store.Sound) {host branch : Cell} (inside : host ∈ store.nodes)
    (isTop : branch ∈ store.trees) (apart : host.id ∉ branch.ids) (nonnegative : 0 ≤ host.value.toInt) :
    ∃ (wide : Ring Cell) (between : Pool),
      insertChild host.id branch.id store =
        .ok () ((store.uprooted branch.id).replace host.id (host.value + 1)
          (graftedRing (host.withRing host.value wide) branch) between) ∧
      host.Grown wide store.pool between ∧ (host.value.places = 0 ∨ 0 < wide.size) := by
  have branchInside := tree_mem_nodes isTop
  have noParent := (mem_trees_iff sound branchInside).mp isTop
  have fertile : ¬ host.value < 0 := by
    rw [Int64.lt_iff_toInt_lt, Int64.toInt_zero]
    omega
  rw [insertChild, run_bind_ok (run_cell_of_some (cell?_of_mem sound.distinct branchInside)),
    run_bind_ok (run_isTop sound branchInside), noParent]
  simp only [Option.isNone_none, Bool.not_true, Bool.false_eq_true, if_false]
  rw [run_bind_ok (run_isAncestor sound branchInside inside)]
  simp only [apart, decide_false, Bool.false_eq_true, if_false]
  rw [run_bind_ok (run_cell_of_some (cell?_of_mem sound.distinct inside))]
  simp only [fertile, if_false]
  by_cases zero : host.value = 0
  · have none : host.value.places = 0 := by simp [Num.places, zero]
    refine ⟨host.ring, store.pool, ?_, Cell.Grown.refl (sound.rings host inside) _, Or.inl none⟩
    rw [if_neg (by simp [zero]), Cell.withRing_self]
    exact run_graft sound inside isTop apart
  · have positive : 0 < host.value.places := by
      have different : host.value.toInt ≠ 0 := by
        intro same
        exact zero (Int64.toInt_inj.mp (by rw [same, Int64.toInt_zero]))
      unfold Num.places
      omega
    obtain ⟨wide, between, anchor, last, middle, entered, stepped, grown, entry⟩ :=
      run_enter sound inside positive
    have wideSound := sound.grow inside grown
    have present := host_mem_replace sound.distinct inside host.value wide between
    have branchStays := mem_trees_replace isTop apart host.value wide between
    have grafts := run_graft wideSound present branchStays apart
    rw [uprooted_replace, Cell.id_withRing, Cell.value_withRing, replace_replace, pool_replace] at grafts
    refine ⟨wide, between, ?_, grown, Or.inr entry⟩
    rw [if_pos zero, run_bind_ok entered, run_bind_ok stepped]
    exact grafts

theorem Sound.graft {store : Store} (sound : store.Sound) {host branch : Cell} (inside : host ∈ store.nodes)
    (isTop : branch ∈ store.trees) (apart : host.id ∉ branch.ids) {wide ring : Ring Cell} {between : Pool}
    (grown : host.Grown wide store.pool between)
    (grafted : Grafted (host.withRing host.value wide) branch ring) :
    ((store.uprooted branch.id).replace host.id (host.value + 1) ring between).Sound := by
  have present := host_mem_replace sound.distinct inside host.value wide between
  have branchStays := mem_trees_replace isTop apart host.value wide between
  have result := sound_graft (sound.grow inside grown) present branchStays apart grafted
  rw [uprooted_replace, Cell.id_withRing, Cell.value_withRing, replace_replace, pool_replace] at result
  exact result

end Store

end RingTape
