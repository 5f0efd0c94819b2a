import RingTape.Proofs.Handover
import RingTape.Proofs.SafeRun

/-!
Trees grown by pushing copies. A push makes its copy before it asks whether the root can have children, and the copy is
not taken back. The only way for a push to fail is a negative root: then the tree is as it was, but its store holds the
copy as a second tree. Trees that are built from a list start from 0 and never meet this, so nothing is in use after
them but a cell for each cell of the members and one for the root.
-/

namespace RingTape

set_option autoImplicit false

namespace CellTree

/-- The tree is as it was, and beside it the store holds a copy of the child that nothing leads to. -/
structure Strays (before child after : CellTree) : Prop where
  root : after.root = before.root
  formed : after.store.WellFormed
  shape : after.snapshot = before.snapshot
  spares : ∀ id, before.store.contains id = true → after.store.fields? id = before.store.fields? id
  copy : ∃ copy, before.store.contains copy = false ∧ after.store.parentLink copy = none ∧
    after.store.snapshot? copy = some child.snapshot ∧
      ∀ id, after.store.contains id = true ↔
        before.store.contains id = true ∨ id = copy ∨ after.store.Descends id copy
  live : after.store.live = before.store.live + child.snapshot.size

section Prepared

variable {tree child : CellTree} {beside : Store} {copy : Cell} (prepared : Prepared tree child beside copy)

include prepared

theorem Prepared.ids_eq : beside.ids = copy.ids ++ tree.store.ids := by
  rw [Store.ids, prepared.trees, Cell.forestIds_cons]
  rfl

theorem Prepared.copy_mem : copy ∈ beside.nodes :=
  Store.tree_mem_nodes (by simp [prepared.trees])

theorem Prepared.apart {id : CellId} (live : id ∈ tree.store.ids) : id ∉ copy.ids := by
  have spread := prepared.sound.distinct
  rw [prepared.ids_eq, List.nodup_append] at spread
  exact fun own => spread.2.2 id own id live rfl

theorem Prepared.mem_nodes {cell : Cell} (inside : cell ∈ tree.store.nodes) : cell ∈ beside.nodes := by
  rw [Store.nodes, prepared.trees, Cell.forestNodes]
  exact List.mem_append_right _ inside

variable (intact : tree.Intact)

include intact

/-- The store with the copy still in it is what a push that fails leaves behind. -/
theorem Prepared.strays : Strays tree child ⟨beside, tree.root⟩ := by
  have sound := prepared.sound
  have formed := (Store.wellFormed_iff_sound _).mpr sound
  have spares := Store.spares_planted intact.sound prepared.trees sound.slots fun _ => False
  have isTop : copy ∈ beside.trees := by simp [prepared.trees]
  constructor
  case root => rfl
  case formed => exact formed
  case shape =>
    have same := spares.cells tree.root intact.root_mem not_false fun _ => nofun
    rw [snapshot, snapshot, cell?, cell?, same]
  case spares =>
    intro id live
    exact spares.fields id ((Store.contains_iff id).mp live) not_false List.not_mem_nil
  case copy =>
    refine ⟨copy.id, ?_, ?_, ?_, ?_⟩
    · rw [← Bool.not_eq_true, Store.contains_iff]
      exact fun live => prepared.apart live copy.id_mem_ids
    · rw [Store.parentLink, (Store.mem_trees_iff sound prepared.copy_mem).mp isTop, Option.map_none]
    · rw [Store.snapshot?, Store.cell?_of_mem sound.distinct prepared.copy_mem, Option.map_some, prepared.shape]
    · intro id
      rw [Store.contains_iff, Store.contains_iff, prepared.ids_eq, List.mem_append,
        Store.mem_ids_iff_descends sound prepared.copy_mem, or_comm]
  case live =>
    have counted := Cell.size_snapshot copy
    rw [prepared.shape] at counted
    rw [formed.live_eq, intact.formed.live_eq, prepared.ids_eq, List.length_append, counted, Cell.ids, List.length_map,
      Nat.add_comm]

/-- The root was there before the copy, so only its value can keep the copy out. -/
theorem Prepared.push_cases : (∃ after, push child tree = .ok () after) ∧ 0 ≤ tree.value ∨
    push child tree = .error (.barren tree.root tree.value) ⟨beside, tree.root⟩ ∧ tree.value < 0 := by
  obtain ⟨host, inside, same⟩ := Store.exists_node_of_mem_ids intact.root_mem
  have valued : tree.value = host.value := by
    rw [value, cell?, ← same, Store.cell?_of_mem intact.sound.distinct inside]
  have present := prepared.mem_nodes inside
  have isTop : copy ∈ beside.trees := by simp [prepared.trees]
  have apart : host.id ∉ copy.ids := prepared.apart (same ▸ intact.root_mem)
  rw [valued]
  by_cases negative : host.value < 0
  · right
    have refused := Store.run_insertChild_barren prepared.sound present isTop apart negative
    rw [same] at refused
    exact ⟨prepared.refuses _ _ refused, negative⟩
  · left
    have nonnegative : 0 ≤ host.value.toInt := by
      rw [Int64.lt_iff_toInt_lt, Int64.toInt_zero] at negative
      omega
    obtain ⟨wide, between, ran, _⟩ := Store.run_insertChild prepared.sound present isTop apart nonnegative
    rw [same] at ran
    exact ⟨⟨_, prepared.grafts _ ran⟩, Int64.not_lt.mp negative⟩

end Prepared

/--
A push fails just if the root is negative. Then the cells of the tree are as they were, and the copy that was made of
the child stays in the store, with all its cells, as a tree of its own.
-/
theorem failed_push_leaves_copy {tree child : CellTree} (intact : tree.Intact) (childIntact : child.Intact) :
    ((∃ fault after, push child tree = .error fault after) ↔ tree.value < 0) ∧
      ∀ fault after, push child tree = .error fault after →
        fault = .barren tree.root tree.value ∧ Strays tree child after := by
  obtain ⟨beside, copy, prepared⟩ := exists_prepared intact.sound childIntact
  rcases prepared.push_cases intact with ⟨⟨reached, ran⟩, nonnegative⟩ | ⟨ran, negative⟩
  · constructor
    · constructor
      · rintro ⟨fault, after, failed⟩
        cases ran.symm.trans failed
      · exact fun negative => absurd negative (Int64.not_lt.mpr nonnegative)
    · intro fault after failed
      cases ran.symm.trans failed
  · constructor
    · exact iff_of_true ⟨_, _, ran⟩ negative
    · intro fault after failed
      cases ran.symm.trans failed
      exact ⟨rfl, prepared.strays intact⟩

/-- An open arc of two in a ring of four, the second with a ring of its own that has no members yet. -/
def halfOpen : CellTree :=
  ⟨Deed.performAll (fun _ => Store.empty) [⟨0, .alloc 4⟩, ⟨0, .child ⟨0⟩⟩, ⟨0, .prev ⟨1⟩⟩, ⟨0, .setValue ⟨2⟩ 2⟩] 0, ⟨0⟩⟩

theorem intact_halfOpen : halfOpen.Intact :=
  ⟨(Store.wellFormed_iff_sound _).mpr (Deed.sound_performAll (fun _ => Store.sound_empty) _ (by decide +kernel) 0),
    by decide +kernel⟩

theorem failed_push_leaves_copy_halfOpen :
    (leaf (-3)).Intact ∧ halfOpen.Intact ∧ ∃ after, push halfOpen (leaf (-3)) = .error (.barren ⟨0⟩ (-3)) after ∧
      Strays (leaf (-3)) halfOpen after ∧ after.store.live = 4 := by
  have intact : (leaf (-3)).Intact := intact_of_rooted (rooted_leaf (-3))
  obtain ⟨fails, leaves⟩ := failed_push_leaves_copy intact intact_halfOpen
  obtain ⟨fault, after, failed⟩ := fails.mpr (by decide)
  obtain ⟨rfl, strays⟩ := leaves fault after failed
  exact ⟨intact, intact_halfOpen, after, failed, strays, strays.live⟩

/-- A push that fails is not undone: there is one more cell than before. -/
theorem failed_push_is_not_undone :
    ¬ ∀ (tree child after : CellTree) (fault : Fault), tree.Intact → child.Intact →
      push child tree = .error fault after → after.snapshot = tree.snapshot ∧ after.store.live = tree.store.live ∧
        ∀ id, after.store.contains id = tree.store.contains id := by
  intro undone
  have intact (value : Num) : (leaf value).Intact := intact_of_rooted (rooted_leaf value)
  have failed : push (leaf 7) (leaf (-1)) = .error (.barren ⟨0⟩ (-1))
      ⟨⟨[Cell.leaf ⟨1⟩ 7, Cell.leaf ⟨0⟩ (-1)], ⟨[], 2⟩⟩, ⟨0⟩⟩ := rfl
  obtain ⟨_, live, _⟩ := undone _ _ _ _ (intact (-1)) (intact 7) failed
  exact absurd live (by decide)

end CellTree

theorem Snapshot.forestSize_eq (shapes : List Snapshot) : forestSize shapes = (shapes.map size).sum := by
  induction shapes with
  | nil => rfl
  | cons shape rest induction => rw [forestSize, induction, List.map_cons, List.sum_cons]

/-- A complete ring has a cell for each cell of its members, and the one they belong to. -/
theorem Snapshot.size_ringOfShapes (shapes : List Snapshot) :
    (ringOfShapes shapes).size = 1 + (shapes.map size).sum := by
  rw [ringOfShapes, size, forestSize_eq, forestSize, Nat.add_zero]

namespace CellTree

/-- Single cells put together are a ring of leaves. -/
theorem ofChildren_leaves (values : List Num) (short : values.length < 2 ^ 63) :
    ∃ tree, ofChildren (values.map leaf) = .ok tree ∧ tree.snapshot = Snapshot.ringOf values := by
  have intact : ∀ child ∈ values.map leaf, child.Intact := by
    intro child among
    obtain ⟨value, _, rfl⟩ := List.mem_map.mp among
    exact intact_of_rooted (rooted_leaf value)
  obtain ⟨tree, built, _, shape⟩ := rooted_ofChildren intact (by rwa [List.length_map])
  have leaves : (values.map leaf).map snapshot = values.map Snapshot.leaf := by
    rw [List.map_map]
    exact List.map_congr_left fun value _ => snapshot_leaf value
  refine ⟨tree, built, ?_⟩
  rw [shape, leaves, Snapshot.ringOfShapes, List.length_map]
  rfl

/--
Trees are built as written. Any intact trees can be put together, with one root that counts them and shows their shapes
in order; no cell is left over. Bytes that are linked to a ring at once show the same as their single cells put together.
-/
theorem built_as_written :
    (∀ children : List CellTree, (∀ child ∈ children, child.Intact) → children.length < 2 ^ 63 →
      ∃ tree, ofChildren children = .ok tree ∧ tree.store.OneTree tree.root ∧
        tree.value.toInt = children.length ∧
        tree.snapshot = ⟨tree.value, tree.value, children.map snapshot, []⟩ ∧
        (children = [] → tree.snapshot = Snapshot.leaf 0) ∧
        tree.store.live = 1 + (children.map fun child => child.snapshot.size).sum) ∧
    ∀ bytes : List UInt8, (ofBytes bytes).snapshot = Snapshot.ringOf (bytes.map Num.ofByte) ∧
      (bytes.length < 2 ^ 63 → ∃ tree, ofChildren (bytes.map fun byte => leaf (Num.ofByte byte)) = .ok tree ∧
        tree.snapshot = (ofBytes bytes).snapshot) := by
  constructor
  · intro children intact short
    obtain ⟨tree, built, rooted, shape⟩ := rooted_ofChildren intact short
    have valued : tree.value = Int64.ofNat children.length := by
      rw [← value_snapshot, shape, Snapshot.ringOfShapes, List.length_map]
    have live := rooted.live_eq_size
    refine ⟨tree, built, rooted.oneTree, ?_, ?_, ?_, ?_⟩
    · rw [valued, Int64.toInt_ofNat_of_lt short]
    · rw [valued, shape, Snapshot.ringOfShapes, List.length_map]
    · rintro rfl
      exact shape
    · rw [live, shape, Snapshot.size_ringOfShapes, List.map_map]
      rfl
  · intro bytes
    refine ⟨snapshot_ofBytes bytes, ?_⟩
    intro short
    obtain ⟨tree, built, shape⟩ := ofChildren_leaves (bytes.map Num.ofByte) (by rwa [List.length_map])
    rw [List.map_map] at built
    exact ⟨tree, built, by rw [shape, snapshot_ofBytes]⟩

theorem built_as_written_mixed :
    (∀ child ∈ [halfOpen, ofBytes [104, 105], leaf 9], child.Intact) ∧
      (∃ tree, ofChildren [halfOpen, ofBytes [104, 105], leaf 9] = .ok tree ∧ tree.store.OneTree tree.root ∧
        tree.snapshot = ⟨3, 3, [⟨4, 2, [.leaf 0], [.leaf 2]⟩, ⟨2, 2, [.leaf 104, .leaf 105], []⟩, .leaf 9], []⟩ ∧
          tree.store.live = 8) ∧
      ∃ tree, ofChildren [leaf 104, leaf 105] = .ok tree ∧ tree.snapshot = (ofBytes [104, 105]).snapshot := by
  have intact : ∀ child ∈ [halfOpen, ofBytes [104, 105], leaf 9], child.Intact := by
    simp only [List.forall_mem_cons]
    exact ⟨intact_halfOpen, intact_of_rooted (rooted_ofBytes (by decide)), intact_of_rooted (rooted_leaf 9), nofun⟩
  obtain ⟨tree, built, one, counted, shape, _, live⟩ := built_as_written.1 _ intact (by decide)
  have valued : tree.value = 3 := Int64.toInt.inj counted
  rw [valued] at shape
  exact ⟨intact, ⟨tree, built, one, shape, live⟩, (built_as_written.2 [104, 105]).2 (by decide)⟩

end CellTree

end RingTape
