import RingTape.Proofs.Locality

/-!
Copies are exact. A cell that is overwritten with another one looks the same as that one did before, down to the last
ring below it, and stays where it was; the store has grown by what lies below the original and shrunk by what lay
below the cell. Original and target may be in one store, and one of them may contain the other.
-/

namespace RingTape

set_option autoImplicit false

/-- What a ring looks like from its owner: how many children there are on either side, and whether it is closed. -/
structure Face where
  value : Num
  forward : Nat
  backward : Nat
  closed : Bool
deriving DecidableEq, Repr

namespace Cell

def face (cell : Cell) : Face :=
  ⟨cell.value, cell.ring.forward.length, cell.ring.backward.length, cell.isClosed⟩

/-- Lists of cells with the same shapes show the same faces, if this is so of their members. -/
theorem faces_of_forestSnapshot {left right : List Cell}
    (each : ∀ cell ∈ left, ∀ other : Cell, cell.snapshot = other.snapshot →
      cell.nodes.map face = other.nodes.map face)
    (same : forestSnapshot left = forestSnapshot right) :
    (forestNodes left).map face = (forestNodes right).map face := by
  rw [forestSnapshot_eq, forestSnapshot_eq] at same
  induction left generalizing right with
  | nil =>
      rw [List.map_nil, eq_comm, List.map_eq_nil_iff] at same
      rw [same]
  | cons cell rest induction =>
      cases right with
      | nil => simp at same
      | cons other others =>
          rw [List.map_cons, List.map_cons, List.cons.injEq] at same
          have further := induction (fun member among => each member (List.mem_cons_of_mem _ among)) same.2
          rw [forestNodes, forestNodes, List.map_append, List.map_append, further,
            each cell List.mem_cons_self other same.1]

/-- Cells of the same shape have the same faces at every depth. -/
theorem faces_of_snapshot (cell other : Cell) (same : cell.snapshot = other.snapshot) :
    cell.nodes.map face = other.nodes.map face := by
  induction cell using treeInduction generalizing other with
  | step cell induction =>
      rcases cell with ⟨id, value, ⟨forward, backward⟩⟩
      rcases other with ⟨otherId, otherValue, ⟨otherForward, otherBackward⟩⟩
      simp only [snapshot, Snapshot.mk.injEq] at same
      obtain ⟨rfl, _, ahead, behind⟩ := same
      have aheadFaces := faces_of_forestSnapshot
        (fun child among => induction child (List.mem_append_left _ among)) ahead
      have behindFaces := faces_of_forestSnapshot
        (fun child among => induction child (List.mem_append_right _ among)) behind
      have aheadLength := congrArg List.length ahead
      have behindLength := congrArg List.length behind
      rw [forestSnapshot_eq, forestSnapshot_eq, List.length_map, List.length_map] at aheadLength behindLength
      have aheadNone : forward.isEmpty = otherForward.isEmpty := by
        rw [Bool.eq_iff_iff, List.isEmpty_iff_length_eq_zero, List.isEmpty_iff_length_eq_zero, aheadLength]
      have own : (⟨id, value, ⟨forward, backward⟩⟩ : Cell).face =
          (⟨otherId, value, ⟨otherForward, otherBackward⟩⟩ : Cell).face := by
        simp only [face, isClosed, Ring.isClosed, Ring.isFull, Ring.size, aheadLength, behindLength, aheadNone]
      rw [forestNodes_eq, forestNodes_eq] at aheadFaces behindFaces
      rw [nodes_eq, nodes_eq, List.map_cons, List.map_cons, own]
      simp only [Ring.members, List.flatMap_append, List.map_append, aheadFaces, behindFaces]

theorem length_descendants_of_snapshot {cell other : Cell} (same : cell.snapshot = other.snapshot) :
    cell.descendants.length = other.descendants.length := by
  have lengths := congrArg List.length (faces_of_snapshot cell other same)
  have size (cell : Cell) : cell.nodes.length = cell.descendants.length + 1 := by
    have ids : cell.ids.length = cell.nodes.length := List.length_map _
    rw [← ids, ids_eq, List.length_cons, (descendants_perm cell).length_eq]
  rw [List.length_map, List.length_map, size, size] at lengths
  omega

end Cell

namespace Store

/-- What a cell and all cells below it look like. -/
def faces? (store : Store) (id : CellId) : Option (List Face) :=
  (store.cell? id).map fun cell => cell.nodes.map Cell.face

/-- The store after a cell was overwritten with an exact copy of a cell of the same or another store. -/
structure Copied (before : Store) (target : CellId) (original : Store) (source : CellId) (after : Store) : Prop where
  formed : after.WellFormed
  shape : after.snapshot? target = original.snapshot? source
  faces : after.faces? target = original.faces? source
  kin : after.kin target = before.kin target
  counted : after.live + (before.below target).length = before.live + (original.below source).length

section Copying

variable {store : Store} (sound : store.Sound)

include sound

/-- The number of cells changes by what is below the old and below the new cell. -/
theorem length_ids_replace {host : Cell} (inside : host ∈ store.nodes) (value : Num) (ring : Ring Cell)
    (pool : Pool) :
    (store.replace host.id value ring pool).ids.length + host.descendants.length =
      store.ids.length + (Cell.forestIds ring.members).length := by
  have exchanged : ((store.replace host.id value ring pool).ids ++ Cell.forestIds host.ring.members).Perm
      (store.ids ++ Cell.forestIds ring.members) := by
    rw [List.perm_iff_count]
    intro id
    rw [List.count_append, List.count_append]
    exact Cell.count_forestReplace sound.distinct value ring id inside
  have lengths := exchanged.length_eq
  rw [List.length_append, List.length_append, ← (Cell.descendants_perm host).length_eq] at lengths
  exact lengths

/-- A copy succeeds and is exact, wherever the original is. -/
theorem copied_copyFrom {target : CellId} (live : store.contains target = true) {other : Store}
    (otherSound : other.Sound) {source : CellId} (present : other.contains source = true) :
    ∃ after, copyFrom target other source store = .ok () after ∧ Copied store target other source after := by
  obtain ⟨image, imageFound⟩ := Option.isSome_iff_exists.mp present
  obtain ⟨host, found⟩ := Option.isSome_iff_exists.mp live
  obtain ⟨imageInside, _⟩ := mem_nodes_of_cell? imageFound
  obtain ⟨inside, same⟩ := mem_nodes_of_cell? found
  subst same
  have ran : copyFrom host.id other source store = .ok () (store.replace host.id image.value
      (store.copyOver host image).1.ring (store.copyOver host image).2) := by
    rw [copyFrom, imageFound]
    exact run_overwrite sound inside image
  -- The image is a value that was read before anything is written, so it may be from this store, too.
  have afterSound := sound.overwrite inside fun node below =>
    otherSound.rings node (Cell.forestNodes_subset _ _ imageInside _ below)
  have afterFormed := (wellFormed_iff_sound _).mpr afterSound
  have copyFound := cell?_replace sound.distinct inside afterSound.distinct
  have shape := snapshot_copyOver store host image
  have assigns := assigns_copyFrom sound host.id other source
  rw [leave_of_ok ran] at assigns
  refine ⟨_, ran, ⟨afterFormed, ?_, ?_, assigns.kin, ?_⟩⟩
  · rw [snapshot?, copyFound, snapshot?, imageFound, Option.map_some, Option.map_some, shape]
  · rw [faces?, copyFound, faces?, imageFound, Option.map_some, Option.map_some, Cell.faces_of_snapshot _ _ shape]
  · have lengths := length_ids_replace sound inside image.value (store.copyOver host image).1.ring
      (store.copyOver host image).2
    have grown := Cell.length_descendants_of_snapshot shape
    rw [(Cell.descendants_perm _).length_eq, Cell.ring_withRing] at grown
    rw [afterFormed.live_eq, ((wellFormed_iff_sound _).mpr sound).live_eq, below, below, found, imageFound]
    simp only [Option.map_some, Option.getD_some]
    omega

theorem copied_copyWithin {target source : CellId} (live : store.contains target = true)
    (present : store.contains source = true) :
    ∃ after, copyWithin target source store = .ok () after ∧ Copied store target store source after := by
  unfold copyWithin
  by_cases different : target ≠ source
  · rw [if_pos different]
    exact copied_copyFrom sound live sound present
  · have same : target = source := not_not.mp different
    subst same
    rw [if_neg different]
    exact ⟨store, rfl, ⟨(wellFormed_iff_sound _).mpr sound, rfl, rfl, rfl, rfl⟩⟩

/-- The original stays as it is, if neither of the two contains the other. -/
theorem snapshot?_copyWithin {target source : CellId} (present : store.contains source = true)
    (outside : source ∉ store.branch target) (above : target ∉ store.branch source) :
    (leave (copyWithin target source) store).snapshot? source = store.snapshot? source := by
  have spares := (assigns_copyWithin sound target source).spares
  rw [snapshot?, spares.cells source ((contains_iff _).mp present), snapshot?]
  · rintro ⟨_, under⟩
    exact outside (mem_branch_of_below under)
  · intro touched only
    rw [List.mem_singleton.mp only]
    exact above

end Copying

end Store

namespace Deed

/--
Copies are exact. A copy of a cell of another store, or of any cell of the same store, succeeds and gives the target
the shape that the original had before, whatever contains what. The store of the original stays as it is, and within
one store the original does if neither of the two contains the other.
-/
theorem copies_are_exact (stores : Nat → Store) (formed : ∀ number, (stores number).WellFormed) (number : Nat)
    (target : CellId) (live : (stores number).contains target = true) :
    (∀ (other : Nat) (source : CellId), (stores other).contains source = true →
      let after := perform stores ⟨number, .copyFrom target other source⟩
      Store.copyFrom target (stores other) source (stores number) = .ok () (after number) ∧
        (stores number).Copied target (stores other) source (after number) ∧
        (other ≠ number → after other = stores other)) ∧
    ∀ source : CellId, (stores number).contains source = true →
      let after := perform stores ⟨number, .copyWithin target source⟩ number
      Store.copyWithin target source (stores number) = .ok () after ∧
        (stores number).Copied target (stores number) source after ∧
        (source ∉ (stores number).branch target → target ∉ (stores number).branch source →
          after.snapshot? source = (stores number).snapshot? source) := by
  have sound (number : Nat) : (stores number).Sound := (Store.wellFormed_iff_sound _).mp (formed number)
  constructor
  · intro other source present after
    obtain ⟨reached, ran, copied⟩ := Store.copied_copyFrom (sound number) live (sound other) present
    have same : after number = reached := by
      simp only [after, perform, Function.update_self, Operation.outcome]
      exact Store.leave_of_ok ran
    refine ⟨same ▸ ran, same ▸ copied, ?_⟩
    intro different
    simp only [after, perform, Function.update_of_ne different]
  · intro source present after
    obtain ⟨reached, ran, copied⟩ := Store.copied_copyWithin (sound number) live present
    have same : after = reached := by
      simp only [after, perform, Function.update_self, Operation.outcome]
      exact Store.leave_of_ok ran
    refine ⟨same ▸ ran, same ▸ copied, ?_⟩
    intro outside above
    rw [same, ← Store.leave_of_ok ran]
    exact Store.snapshot?_copyWithin (sound number) present outside above

/-- A text of two letters is copied over its first letter. -/
theorem copies_are_exact_within_itself :
    let store := (Store.plantBytes [104, 105] Store.empty).2
    store.WellFormed ∧ store.contains ⟨1⟩ = true ∧ ⟨1⟩ ∈ store.branch ⟨0⟩ ∧
      ∃ after, Store.copyWithin ⟨1⟩ ⟨0⟩ store = .ok () after ∧ store.Copied ⟨1⟩ store ⟨0⟩ after ∧
        after.live = 5 := by
  intro store
  have formed : store.WellFormed :=
    (Store.wellFormed_iff_sound _).mpr (Store.sound_plantBytes Store.sound_empty _ (by decide))
  have live : store.contains ⟨1⟩ = true := by decide +kernel
  have law := copies_are_exact (fun _ => store) (fun _ => formed) 0 ⟨1⟩ live
  obtain ⟨ran, copied, _⟩ := law.2 ⟨0⟩ (by decide +kernel)
  have before : store.live = 3 ∧ (store.below ⟨1⟩).length = 0 ∧ (store.below ⟨0⟩).length = 2 := by decide +kernel
  have counted := copied.counted
  refine ⟨formed, live, by decide +kernel, _, ran, copied, ?_⟩
  omega

end Deed

end RingTape
