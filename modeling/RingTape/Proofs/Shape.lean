import RingTape.CellTree
import RingTape.Proofs.Content
import RingTape.Proofs.Copy

/-!
The shape of cells, which copies share. A snapshot shows all there is to a tree but its slots: it has what the
content of the tree is made from, and a copy has the snapshot of its image. Where a ring is complete its
snapshot lists every child in order.
-/

namespace RingTape

set_option autoImplicit false

mutual

/-- The content of the cells that have this shape. -/
def Snapshot.content : Snapshot → Content
  | ⟨value, _, forward, backward⟩ =>
      .node value (Snapshot.contents forward ++
        List.replicate (value.places - (forward.length + backward.length)) Content.zero ++
          (Snapshot.contents backward).reverse)

def Snapshot.contents : List Snapshot → List Content
  | [] => []
  | snapshot :: rest => snapshot.content :: Snapshot.contents rest

end

/-- A complete ring whose members have the given shapes. -/
def Snapshot.ringOfShapes (shapes : List Snapshot) : Snapshot :=
  ⟨Int64.ofNat shapes.length, Int64.ofNat shapes.length, shapes, []⟩

namespace Cell

theorem forestSnapshot_eq (cells : List Cell) : forestSnapshot cells = cells.map snapshot := by
  induction cells with
  | nil => rfl
  | cons cell rest induction => simp [forestSnapshot, induction]

theorem contents_forestSnapshot (cells : List Cell)
    (each : ∀ cell ∈ cells, cell.snapshot.content = cell.content) :
    Snapshot.contents (forestSnapshot cells) = contents cells := by
  induction cells with
  | nil => rfl
  | cons cell rest induction =>
      rw [forestSnapshot, Snapshot.contents, contents, each cell List.mem_cons_self,
        induction fun other among => each other (List.mem_cons_of_mem _ among)]

/-- The content of a cell can be read off its snapshot. -/
theorem content_snapshot (cell : Cell) : cell.snapshot.content = cell.content := by
  induction cell using treeInduction with
  | step cell induction =>
      rcases cell with ⟨id, value, ⟨forward, backward⟩⟩
      have ahead := contents_forestSnapshot forward fun child among => induction child (List.mem_append_left _ among)
      have behind := contents_forestSnapshot backward
        fun child among => induction child (List.mem_append_right _ among)
      rw [snapshot, Snapshot.content, content, ahead, behind, forestSnapshot_eq, forestSnapshot_eq,
        List.length_map, List.length_map]

theorem snapshot_cloneAll (images : List Cell)
    (each : ∀ image ∈ images, ∀ id pool, (image.cloneAs id pool).1.snapshot = image.snapshot)
    (ids : List CellId) (same : ids.length = images.length) (pool : Pool) :
    forestSnapshot (cloneAll ids images pool).1 = forestSnapshot images := by
  induction images generalizing ids pool with
  | nil =>
      rw [List.length_nil] at same
      rw [List.eq_nil_of_length_eq_zero same]
      rfl
  | cons image rest induction =>
      cases ids with
      | nil => simp at same
      | cons id ids =>
          have others := induction (fun other among => each other (List.mem_cons_of_mem _ among)) ids
            (by simpa using same) pool
          simp only [cloneAll, forestSnapshot]
          rw [each image List.mem_cons_self, others]

/-- A copy has the shape of its image. -/
theorem snapshot_cloneAs (image : Cell) (id : CellId) (pool : Pool) :
    (image.cloneAs id pool).1.snapshot = image.snapshot := by
  induction image using treeInduction generalizing id pool with
  | step image induction =>
      rcases image with ⟨slot, value, ⟨forward, backward⟩⟩
      have nearLength := Pool.length_takeMany forward.length pool
      have farLength := Pool.length_takeMany backward.length (pool.takeMany forward.length).2
      have behind := snapshot_cloneAll backward
        (fun child among => induction child (List.mem_append_right _ among)) _ farLength
        ((pool.takeMany forward.length).2.takeMany backward.length).2
      have ahead := snapshot_cloneAll forward
        (fun child among => induction child (List.mem_append_left _ among)) _ nearLength
        (cloneAll ((pool.takeMany forward.length).2.takeMany backward.length).1 backward
          ((pool.takeMany forward.length).2.takeMany backward.length).2).2
      have nearSize := congrArg List.length ahead
      have farSize := congrArg List.length behind
      simp only [forestSnapshot_eq, List.length_map] at nearSize farSize
      simp only [cloneAs, snapshot, ahead, behind, nearSize, farSize]

theorem snapshot_mk (id : CellId) (value : Num) (forward : List Cell) :
    (⟨id, value, ⟨forward, []⟩⟩ : Cell).snapshot =
      ⟨value, Int64.ofNat forward.length, forestSnapshot forward, []⟩ :=
  rfl

/-- The ring of a cell that shows a complete one. -/
theorem of_snapshot_ringOfShapes {cell : Cell} {shapes : List Snapshot}
    (shape : cell.snapshot = Snapshot.ringOfShapes shapes) :
    cell.value = Int64.ofNat shapes.length ∧ cell.ring.backward = [] ∧
      forestSnapshot cell.ring.forward = shapes := by
  rcases cell with ⟨id, value, ⟨forward, backward⟩⟩
  simp only [snapshot, Snapshot.ringOfShapes, Snapshot.mk.injEq] at shape
  obtain ⟨valued, _, shown, closed⟩ := shape
  rw [forestSnapshot_eq, List.map_eq_nil_iff] at closed
  exact ⟨valued, closed, shown⟩

section Complete

variable {cell : Cell} {shapes : List Snapshot} (shape : cell.snapshot = Snapshot.ringOfShapes shapes)

include shape

theorem toInt_value_of_shapes (short : shapes.length < 2 ^ 63) : cell.value.toInt = shapes.length := by
  rw [(of_snapshot_ringOfShapes shape).1, Int64.toInt_ofNat_of_lt short]

theorem size_of_shapes (short : shapes.length < 2 ^ 63) : cell.ring.size = cell.value.places := by
  obtain ⟨_, closed, shown⟩ := of_snapshot_ringOfShapes shape
  have number := congrArg List.length shown
  rw [forestSnapshot_eq, List.length_map] at number
  rw [Ring.size, closed, List.length_nil, number, Num.places, toInt_value_of_shapes shape short]
  rfl

/-- One more child at the end of a complete ring. -/
theorem snapshot_append_shape (branch : Cell) (room : shapes.length + 1 < 2 ^ 63) :
    (cell.withRing (cell.value + 1) ⟨cell.ring.forward ++ [branch], []⟩).snapshot =
      Snapshot.ringOfShapes (shapes ++ [branch.snapshot]) := by
  have counted := toInt_value_of_shapes shape (by omega)
  have below : cell.value.toInt < Num.greatest := by
    unfold Num.greatest
    omega
  have plusOne : cell.value + 1 = Int64.ofNat (shapes ++ [branch.snapshot]).length := by
    apply Int64.toInt.inj
    rw [List.length_append, List.length_singleton, Int64.toInt_ofNat_of_lt room, Num.toInt_add_one below, counted]
    rfl
  have listed : forestSnapshot (cell.ring.forward ++ [branch]) = shapes ++ [branch.snapshot] := by
    rw [forestSnapshot_eq, List.map_append, ← forestSnapshot_eq, (of_snapshot_ringOfShapes shape).2.2]
    rfl
  have number := congrArg List.length listed
  rw [forestSnapshot_eq, List.length_map] at number
  rw [withRing, snapshot_mk, plusOne, listed, number]
  rfl

end Complete

end Cell

/-- A cell that was overwritten has the shape of the image. -/
theorem Store.snapshot_copyOver (store : Store) (host image : Cell) :
    (host.withRing image.value (store.copyOver host image).1.ring).snapshot = image.snapshot := by
  have cloned := Cell.cloned_cloneAs image host.id (store.pool.give host.descendants)
  have whole : host.withRing image.value (store.copyOver host image).1.ring = (store.copyOver host image).1 := by
    rw [← Cell.mk_fields (store.copyOver host image).1]
    simp only [Cell.withRing, copyOver, cloned.slot, cloned.value]
  rw [whole]
  exact Cell.snapshot_cloneAs image host.id _

namespace Ring

variable {α : Type}

/-- A complete ring is closed, and its roster has no gap. -/
theorem roster_of_full {value : Num} {ring : Ring α} (fits : ring.Fits value) (full : ring.size = value.places) :
    ring.backward = [] ∧ ring.roster value = ring.forward.map some := by
  have closed : ring.backward = [] := by
    rcases Nat.eq_zero_or_pos value.places with none | some
    · rw [none] at full
      exact List.eq_nil_of_length_eq_zero (Nat.eq_zero_of_add_eq_zero_left full)
    · apply fits.sealed
      unfold Num.places at full some
      simp only [isFull, beq_iff_eq]
      omega
  refine ⟨closed, ?_⟩
  rw [roster, full, Nat.sub_self, closed]
  simp

end Ring

/-- A complete ring cannot grow. -/
theorem Cell.Grown.eq_of_full {host : Cell} {ring : Ring Cell} {before after : Pool}
    (grown : host.Grown ring before after) (fits : host.Fits) (full : host.ring.size = host.value.places) :
    ring = host.ring := by
  obtain ⟨fresh, members, _⟩ := grown.extra
  have bounded := grown.fits.size_le
  have counted := members.length_eq
  rw [List.length_append, List.length_map, ← Ring.size_eq_length_members, ← Ring.size_eq_length_members] at counted
  have ⟨hostClosed, hostRoster⟩ := Ring.roster_of_full fits full
  have ⟨closed, roster⟩ := Ring.roster_of_full grown.fits (by omega)
  -- Every index of the one roster is taken, and by the same cell in the other.
  have same : ring.roster host.value = host.ring.roster host.value := by
    apply List.ext_getElem?
    intro index
    cases occupant : (host.ring.roster host.value)[index]? with
    | none =>
        rw [List.getElem?_eq_none_iff] at occupant ⊢
        rw [Ring.length_roster _ _ (Ring.Fits.size_le fits)] at occupant
        rw [Ring.length_roster _ _ bounded]
        exact occupant
    | some seat =>
        rw [hostRoster, List.getElem?_map] at occupant
        obtain ⟨member, there, rfl⟩ := Option.map_eq_some_iff.mp occupant
        apply grown.kept index member
        rw [Seats, hostRoster, List.getElem?_map, there]
        rfl
  rw [roster, hostRoster] at same
  have front := (List.map_injective_iff.mpr (Option.some_injective Cell)) same
  rcases ring with ⟨forward, backward⟩
  rcases own : host.ring with ⟨hostForward, hostBackward⟩
  rw [own] at front hostClosed
  simp only at front closed hostClosed
  rw [front, closed, hostClosed]

/-- What is grafted to a complete ring comes last in it. -/
theorem Store.Grafted.ring_of_full {host branch : Cell} {ring : Ring Cell} (grafted : Grafted host branch ring)
    (fits : host.Fits) (full : host.ring.size = host.value.places)
    (larger : (host.value + 1).places = host.value.places + 1) :
    ring = ⟨host.ring.forward ++ [branch], []⟩ := by
  have counted := grafted.members.length_eq
  rw [List.length_cons, ← Ring.size_eq_length_members, ← Ring.size_eq_length_members] at counted
  have ⟨_, hostRoster⟩ := Ring.roster_of_full fits full
  have ⟨closed, roster⟩ := Ring.roster_of_full grafted.fits (by omega)
  have same := grafted.roster
  rw [roster, hostRoster, ← List.map_singleton, ← List.map_append] at same
  have front := (List.map_injective_iff.mpr (Option.some_injective Cell)) same
  rcases ring with ⟨forward, backward⟩
  simp only at front closed
  rw [front, closed]

namespace CellTree

theorem value_snapshot (tree : CellTree) : tree.snapshot.value = tree.value := by
  unfold snapshot value
  rcases tree.cell? with _ | ⟨_, _, ⟨_, _⟩⟩ <;> rfl

theorem snapshot_of_top {tree : CellTree} {top : Cell} {others : List Cell}
    (first : tree.store.trees = top :: others) (same : top.id = tree.root) : tree.snapshot = top.snapshot := by
  have found : tree.cell? = some top := by
    rw [cell?, Store.cell?, Cell.forestFind?_eq, first, Cell.forestNodes, Cell.nodes_eq]
    simp [same]
  rw [snapshot, found]

theorem snapshot_leaf (value : Num) : (leaf value).snapshot = Snapshot.leaf value := by
  have shown : (leaf value).snapshot = (Cell.leaf ⟨0⟩ value).snapshot := snapshot_of_top rfl rfl
  exact shown

/-- The tree of some bytes is a complete ring of them. -/
theorem snapshot_ofBytes (bytes : List UInt8) :
    (ofBytes bytes).snapshot = Snapshot.ringOf (bytes.map Num.ofByte) := by
  have lengths := Pool.length_takeMany bytes.length Pool.empty.take.2
  have leaves (ids : List CellId) (same : ids.length = bytes.length) :
      Cell.forestSnapshot (List.zipWith (fun child byte => Cell.leaf child (Num.ofByte byte)) ids bytes) =
        (bytes.map Num.ofByte).map Snapshot.leaf := by
    induction bytes generalizing ids with
    | nil => simp [Cell.forestSnapshot]
    | cons byte rest induction =>
        cases ids with
        | nil => simp at same
        | cons id ids =>
            have others := induction (Pool.length_takeMany _ _) ids (by simpa using same)
            simp only [List.zipWith_cons_cons, Cell.forestSnapshot, others, List.map_cons]
            rfl
  have shown : (ofBytes bytes).snapshot = _ := snapshot_of_top rfl rfl
  have counted := congrArg List.length (leaves _ lengths)
  rw [Cell.forestSnapshot_eq] at counted
  simp only [List.length_map] at counted
  rw [shown, Cell.snapshot_mk, Snapshot.ringOf, List.length_map]
  congr 1
  · exact congrArg Int64.ofNat counted
  · exact leaves _ lengths

end CellTree

end RingTape
