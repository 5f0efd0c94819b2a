import RingTape.Proofs.Transplant

/-!
Releasing cells. To clear a cell frees exactly the cells from which the links to the parents lead to it, however its ring
and the rings below are closed or open, and gives the slot of each of them back once. A tree that is discarded goes with
its top, so a store is empty once all its tops have been discarded, in any order.
-/

namespace RingTape

set_option autoImplicit false

namespace Store

/-- The cell is strictly below the other one: the links to the parents lead there. -/
def Descends (store : Store) (id top : CellId) : Prop :=
  Relation.TransGen (fun child parent => store.parentLink child = some parent) id top

section Descent

variable {store : Store} (sound : store.Sound) {host : Cell} (inside : host ∈ store.nodes)

include sound inside

theorem Descends.mem_branch {id : CellId} (descends : store.Descends id host.id) : id ∈ store.branch host.id := by
  induction descends using Relation.TransGen.head_induction_on with
  | single linked =>
      exact child_mem_branch sound.distinct (mem_branch_self (mem_ids_of_below inside host.id_mem_ids)) linked
  | head linked _ induction => exact child_mem_branch sound.distinct induction linked

/-- What is below a cell by the links is what the tree of the cell holds beside its top. -/
theorem mem_descendants_iff (id : CellId) : id ∈ host.descendants ↔ store.Descends id host.id := by
  have branch : store.branch host.id = host.id :: Cell.forestIds host.ring.members := by
    rw [Store.branch, cell?_of_mem sound.distinct inside]
    exact host.ids_eq
  rw [(Cell.descendants_perm host).mem_iff]
  constructor
  · intro lower
    have spread := Cell.ids_nodup sound.distinct inside
    rw [Cell.ids_eq, List.nodup_cons] at spread
    have within : id ∈ store.branch host.id := branch ▸ List.mem_cons_of_mem _ lower
    have reached : id = host.id ∨ store.Descends id host.id := by
      apply branch_induction sound.distinct (fun id => id = host.id ∨ store.Descends id host.id) (Or.inl rfl) _ id within
      intro parent child _ above linked
      rcases above with rfl | further
      · exact Or.inr (Relation.TransGen.single linked)
      · exact Or.inr (Relation.TransGen.head linked further)
    exact reached.resolve_left fun same => spread.1 (same ▸ lower)
  · intro descends
    have within := descends.mem_branch sound inside
    rw [branch, List.mem_cons] at within
    refine within.resolve_left ?_
    rintro rfl
    exact acyclic_of_sound sound host.id descends

end Descent

/--
Some cells are gone, and the slot of each of them was given back once. All others are still there with all their fields,
apart from the subject, of which nothing is said here.
-/
structure Releases (before : Store) (gone : CellId → Prop) (subject : CellId) (after : Store) : Prop where
  formed : after.WellFormed
  dead_iff : ∀ id, after.contains id = false ↔ before.contains id = false ∨ gone id
  slots : ∃ freed : List CellId, freed.Nodup ∧ (∀ id, id ∈ freed ↔ gone id) ∧
    after.pool.free = freed ++ before.pool.free ∧ after.pool.slots = before.pool.slots ∧
    after.live + freed.length = before.live
  spares : ∀ id, before.contains id = true → ¬ gone id → id ≠ subject → after.fields? id = before.fields? id

section Release

variable {store : Store} (sound : store.Sound)

include sound

/-- The slots that were in use are those that are given back and those that are in use still. -/
theorem releases_of_partition {after : Store} (afterSound : after.Sound) {freed : List CellId}
    (partition : (freed ++ after.ids).Perm store.ids) (given : after.pool = store.pool.give freed)
    {gone : CellId → Prop} (listed : ∀ id, id ∈ freed ↔ gone id) {touched : List CellId} {subject : CellId}
    (spares : Spares store after touched fun id => id ∉ after.ids) (only : ∀ id ∈ touched, id = subject) :
    Releases store gone subject after := by
  have formed := (wellFormed_iff_sound store).mpr sound
  have afterFormed := (wellFormed_iff_sound after).mpr afterSound
  have spread := List.nodup_append.mp (partition.nodup_iff.mpr sound.distinct)
  have dead {store : Store} (id : CellId) : store.contains id = false ↔ id ∉ store.ids := by
    rw [← Bool.not_eq_true, contains_iff]
  have split (id : CellId) : id ∈ store.ids ↔ gone id ∨ id ∈ after.ids := by
    rw [← partition.mem_iff, List.mem_append, listed]
  refine ⟨afterFormed, ?_, ⟨freed, spread.1, listed, by rw [given]; rfl, by rw [given]; rfl, ?_⟩, ?_⟩
  · intro id
    have apart : gone id → id ∉ after.ids := fun isGone stays =>
      spread.2.2 id ((listed id).mpr isGone) id stays rfl
    rw [dead, dead, split]
    tauto
  · have lengths := partition.length_eq
    rw [List.length_append] at lengths
    rw [afterFormed.live_eq, formed.live_eq]
    omega
  · intro id live stays other
    have present := ((split id).mp ((contains_iff id).mp live)).resolve_left stays
    exact spares.fields id ((contains_iff id).mp live) (not_not.mpr present) fun isTouched => other (only id isTouched)

/-- A cell that is cleared keeps its place, and all that was below it is gone. -/
theorem releases_clear {host : Cell} (inside : host ∈ store.nodes) (value : Num) :
    Releases store (fun id => store.Descends id host.id) host.id
        (store.replace host.id value Ring.empty (store.pool.give host.descendants)) ∧
      ∃ fields, store.fields? host.id = some fields ∧ fields.value = host.value ∧
        (store.replace host.id value Ring.empty (store.pool.give host.descendants)).fields? host.id =
          some { fields with value := value, instantiated := 0, firstChild := none } := by
  have afterSound := sound.clear inside value
  have assigns := assigns_clear sound inside value
  have partition : (host.descendants ++
      (store.replace host.id value Ring.empty (store.pool.give host.descendants)).ids).Perm store.ids := by
    rw [List.perm_iff_count]
    intro id
    have counts : (store.replace host.id value Ring.empty (store.pool.give host.descendants)).ids.count id +
        (Cell.forestIds host.ring.members).count id = store.ids.count id + (Cell.forestIds []).count id :=
      Cell.count_forestReplace sound.distinct value Ring.empty id inside
    have given := (Cell.descendants_perm host).count_eq id
    rw [Cell.forestIds_nil, List.count_nil] at counts
    rw [List.count_append]
    omega
  refine ⟨releases_of_partition sound afterSound partition rfl (mem_descendants_iff sound inside) assigns.spares ?_, ?_⟩
  · intro id only
    exact List.mem_singleton.mp only
  · have here := Has.fields? sound.distinct (Cell.told_of_mem inside)
    have there := Has.fields? afterSound.distinct (Cell.told_of_mem
      (host_mem_replace sound.distinct inside value Ring.empty (store.pool.give host.descendants)))
    rw [Cell.id_withRing, assigns.kin] at there
    exact ⟨_, here, rfl, there⟩

/-- A tree that is discarded goes with its top. -/
theorem releases_discard {top : Cell} (isTop : top ∈ store.trees) :
    Releases store (fun id => id = top.id ∨ store.Descends id top.id) top.id
      ⟨Cell.without top.id store.trees, store.pool.give (top.id :: top.descendants)⟩ := by
  have inside := tree_mem_nodes isTop
  have spares := spares_discard sound top.id
  rw [leave_of_ok (run_discard sound isTop)] at spares
  have partition : (top.id :: top.descendants ++ Cell.forestIds (Cell.without top.id store.trees)).Perm store.ids := by
    rw [List.perm_iff_count]
    intro id
    have counts := (Cell.ForestSound.uproot sound isTop).slots id
    have used : (store.ids.count id : Int) = store.pool.usage id := sound.slots id
    have given := ((Cell.descendants_perm top).cons top.id).count_eq id
    rw [← Cell.ids_eq] at given
    rw [List.count_append]
    omega
  refine releases_of_partition sound (sound_discard sound isTop) partition rfl ?_ spares ?_
  · intro id
    rw [List.mem_cons, mem_descendants_iff sound inside]
  · intro id none
    exact absurd none List.not_mem_nil

/-- A store whose tops are all discarded, one after the other, has no cell left. -/
theorem run_discardAll {tops : List CellId} (once : tops.Nodup) (all : ∀ id, id ∈ tops ↔ id ∈ store.trees.map Cell.id) :
    ∃ after, tops.forM discard store = .ok () after ∧ after.live = 0 := by
  induction tops generalizing store with
  | nil =>
      have bare : store.trees = [] := by
        apply List.eq_nil_of_map_eq_nil
        exact List.eq_nil_iff_forall_not_mem.mpr fun id isTop => absurd ((all id).mpr isTop) List.not_mem_nil
      refine ⟨store, rfl, ?_⟩
      rw [((wellFormed_iff_sound store).mpr sound).live_eq, ids, bare]
      rfl
  | cons first rest induction =>
      rw [List.nodup_cons] at once
      obtain ⟨top, isTop, rfl⟩ := List.mem_map.mp ((all first).mp List.mem_cons_self)
      have remaining (id : CellId) : id ∈ rest ↔ id ∈ (Cell.without top.id store.trees).map Cell.id := by
        have before := all id
        rw [List.mem_cons] at before
        have tops : id ∈ (Cell.without top.id store.trees).map Cell.id ↔ id ∈ store.trees.map Cell.id ∧ id ≠ top.id := by
          simp only [Cell.without, List.mem_map, List.mem_filter, decide_eq_true_eq]
          constructor
          · rintro ⟨tree, ⟨isTree, other⟩, rfl⟩
            exact ⟨⟨tree, isTree, rfl⟩, other⟩
          · rintro ⟨⟨tree, isTree, rfl⟩, other⟩
            exact ⟨tree, ⟨isTree, other⟩, rfl⟩
        rw [tops, ← before]
        constructor
        · intro later
          exact ⟨Or.inr later, fun same => once.1 (same ▸ later)⟩
        · rintro ⟨listed, other⟩
          exact listed.resolve_left other
      obtain ⟨after, ran, none⟩ := induction (sound_discard sound isTop) once.2 remaining
      refine ⟨after, ?_, none⟩
      show (discard top.id >>= fun _ => rest.forM discard) store = _
      rw [run_bind_ok (run_discard sound isTop)]
      exact ran

end Release

/--
To clear a cell, or to give it a new value, frees exactly the cells strictly below it, each once, and touches no other
cell; to discard a tree frees its top as well. So nothing is left when all tops have been discarded.
-/
theorem release_frees_descendants (store : Store) (formed : store.WellFormed) :
    (∀ id, store.contains id = true → ∃ fields, store.fields? id = some fields ∧
      (∃ after, reset id store = .ok () after ∧ Releases store (fun other => store.Descends other id) id after ∧
        after.fields? id = some { fields with instantiated := 0, firstChild := none }) ∧
      (∀ value, ∃ after, setValue id value store = .ok () after ∧
        Releases store (fun other => store.Descends other id) id after ∧
        after.fields? id = some { fields with value := value, instantiated := 0, firstChild := none }) ∧
      (fields.parent = none → ∃ after, discard id store = .ok () after ∧
        Releases store (fun other => other = id ∨ store.Descends other id) id after)) ∧
    ∀ tops : List CellId, tops.Nodup →
      (∀ id, id ∈ tops ↔ store.contains id = true ∧ store.parentLink id = none) →
      ∃ after, tops.forM discard store = .ok () after ∧ after.live = 0 := by
  have sound := (wellFormed_iff_sound store).mp formed
  have isTop_iff {node : Cell} (inside : node ∈ store.nodes) :
      store.parentLink node.id = none ↔ node ∈ store.trees := by
    rw [mem_trees_iff sound inside, parentLink, Option.map_eq_none_iff]
  constructor
  · intro id live
    obtain ⟨host, found⟩ := Option.isSome_iff_exists.mp live
    obtain ⟨inside, rfl⟩ := mem_nodes_of_cell? found
    obtain ⟨releases, fields, read, valued, own⟩ := releases_clear sound inside host.value
    refine ⟨fields, read, ⟨_, run_reset sound inside, releases, ?_⟩, ?_, ?_⟩
    · rw [own, ← valued]
    · intro value
      obtain ⟨releases, again, readAgain, _, own⟩ := releases_clear sound inside value
      obtain rfl : fields = again := Option.some.inj (read.symm.trans readAgain)
      exact ⟨_, run_setValue sound inside value, releases, own⟩
    · intro top
      have parent : store.parentLink host.id = none := by
        rw [fields?, found, Option.map_some] at read
        rw [← top, ← Option.some.inj read]
      have isTop := (isTop_iff inside).mp parent
      exact ⟨_, run_discard sound isTop, releases_discard sound isTop⟩
  · intro tops once all
    apply run_discardAll sound once
    intro id
    rw [all id, contains_iff, ids, Cell.mem_forestIds, List.mem_map]
    constructor
    · rintro ⟨⟨node, inside, rfl⟩, top⟩
      exact ⟨node, (isTop_iff inside).mp top, rfl⟩
    · rintro ⟨tree, isTree, rfl⟩
      have inside := tree_mem_nodes isTree
      exact ⟨⟨tree, inside, rfl⟩, (isTop_iff inside).mpr isTree⟩

/-- An open arc of two in a ring of three, whose anchor has a closed ring of two, and a second tree beside it. -/
def nestedRings : Store :=
  Deed.performAll (fun _ => Store.empty) [⟨0, .alloc 3⟩, ⟨0, .child ⟨0⟩⟩, ⟨0, .prev ⟨1⟩⟩, ⟨0, .setValue ⟨1⟩ 2⟩,
    ⟨0, .child ⟨1⟩⟩, ⟨0, .next ⟨3⟩⟩, ⟨0, .alloc 7⟩] 0

theorem release_frees_descendants_nestedRings :
    nestedRings.WellFormed ∧ nestedRings.contains ⟨0⟩ = true ∧ nestedRings.live = 6 ∧
      (∃ after, reset ⟨0⟩ nestedRings = .ok () after ∧
        Releases nestedRings (fun id => nestedRings.Descends id ⟨0⟩) ⟨0⟩ after ∧
        after.fields? ⟨0⟩ = some ⟨3, 0, none, none, none, none⟩) ∧
      ∃ after, [⟨5⟩, ⟨0⟩].forM discard nestedRings = .ok () after ∧ after.live = 0 := by
  have formed : nestedRings.WellFormed :=
    (wellFormed_iff_sound _).mpr (Deed.sound_performAll (fun _ => sound_empty) _ (by decide +kernel) 0)
  have live : nestedRings.contains ⟨0⟩ = true := by decide +kernel
  have law := release_frees_descendants nestedRings formed
  obtain ⟨fields, read, ⟨after, ran, releases, own⟩, _⟩ := law.1 ⟨0⟩ live
  have known : nestedRings.fields? ⟨0⟩ = some ⟨3, 2, some ⟨1⟩, none, none, none⟩ := by decide +kernel
  obtain rfl := Option.some.inj (read.symm.trans known)
  have tops : ∀ id ∈ nestedRings.ids, nestedRings.parentLink id = none → id ∈ [⟨5⟩, ⟨0⟩] := by decide +kernel
  have listed : ∀ id ∈ [⟨5⟩, ⟨0⟩], nestedRings.contains id = true ∧ nestedRings.parentLink id = none := by
    decide +kernel
  refine ⟨formed, live, by decide +kernel, ⟨after, ran, releases, own⟩, law.2 _ (by decide) ?_⟩
  intro id
  exact ⟨listed id, fun top => tops id ((contains_iff id).mp top.1) top.2⟩

end Store

end RingTape
