import RingTape.Proofs.Trees

/-!
Copying a cell over another, in the same store or from one store to another, and handing the children of one
cell over to another. A copy has rings of the same sizes as its image, so it fits wherever the image did, and
it takes from the pool just the slots it occupies.
-/

namespace RingTape

set_option autoImplicit false

namespace Cell

/-- What copying a cell into a slot gives, besides the contents of the copy. -/
structure Cloned (image copy : Cell) (id : CellId) (before after : Pool) : Prop where
  slot : copy.id = id
  value : copy.value = image.value
  forward : copy.ring.forward.length = image.ring.forward.length
  backward : copy.ring.backward.length = image.ring.backward.length
  counted : ∀ other, after.usage other = before.usage other + (forestIds copy.ring.members).count other
  fits : (∀ node ∈ image.nodes, node.Fits) → ∀ node ∈ copy.nodes, node.Fits

theorem fits_of_lengths {value : Num} {left right : Ring Cell} (fits : left.Fits value)
    (forward : right.forward.length = left.forward.length)
    (backward : right.backward.length = left.backward.length) : right.Fits value := by
  have size : right.size = left.size := by simp only [Ring.size, forward, backward]
  refine ⟨?_, ?_, ?_⟩
  · intro none
    rw [none, List.length_nil] at forward
    have behind := fits.anchored (List.eq_nil_of_length_eq_zero forward.symm)
    rw [behind, List.length_nil] at backward
    exact List.eq_nil_of_length_eq_zero backward
  · rw [size]
    exact fits.bounded
  · intro full
    rw [Ring.isFull, size] at full
    have behind := fits.sealed full
    rw [behind, List.length_nil] at backward
    exact List.eq_nil_of_length_eq_zero backward

/-- A list of cells copied one by one into slots that were set aside for them. -/
theorem cloneAll_spec (images : List Cell)
    (each : ∀ image ∈ images, ∀ id pool,
      image.Cloned (image.cloneAs id pool).1 id pool (image.cloneAs id pool).2)
    (ids : List CellId) (same : ids.length = images.length) (pool : Pool) :
    (cloneAll ids images pool).1.length = images.length ∧
      (∀ other, (cloneAll ids images pool).2.usage other + ids.count other =
        pool.usage other + (forestIds (cloneAll ids images pool).1).count other) ∧
      ((∀ image ∈ images, ∀ node ∈ image.nodes, node.Fits) →
        ∀ copy ∈ (cloneAll ids images pool).1, ∀ node ∈ copy.nodes, node.Fits) := by
  induction images generalizing ids pool with
  | nil =>
      rw [List.length_nil] at same
      rw [List.eq_nil_of_length_eq_zero same]
      refine ⟨rfl, fun _ => rfl, ?_⟩
      intro _ copy member
      simp [cloneAll] at member
  | cons image rest induction =>
      cases ids with
      | nil => simp at same
      | cons id ids =>
          have ⟨length, counted, fits⟩ := induction (fun other member => each other (by simp [member])) ids
            (by simpa using same) pool
          -- The later cells are copied first, so the pool of this one is what they leave.
          have first := each image (by simp) id (cloneAll ids rest pool).2
          simp only [cloneAll]
          refine ⟨by simp [length], ?_, ?_⟩
          · intro other
            have others := counted other
            have own := first.counted other
            rw [forestIds_cons, ids_eq, first.slot]
            simp only [List.count_append, List.count_cons]
            split_ifs <;> push_cast <;> omega
          · intro imagesFit copy member
            rcases List.mem_cons.mp member with same | later
            · rw [same]
              exact first.fits (imagesFit image (by simp))
            · exact fits (fun other member => imagesFit other (by simp [member])) copy later

theorem cloned_cloneAs (image : Cell) (id : CellId) (pool : Pool) :
    image.Cloned (image.cloneAs id pool).1 id pool (image.cloneAs id pool).2 := by
  induction image using treeInduction generalizing id pool with
  | step image induction =>
      rcases image with ⟨slot, value, ⟨forward, backward⟩⟩
      have nearLength := Pool.length_takeMany forward.length pool
      have farLength := Pool.length_takeMany backward.length (pool.takeMany forward.length).2
      have behind := cloneAll_spec backward
        (fun child member => induction child (by simp [Ring.members, member])) _ farLength
        ((pool.takeMany forward.length).2.takeMany backward.length).2
      have ahead := cloneAll_spec forward
        (fun child member => induction child (by simp [Ring.members, member])) _ nearLength
        (cloneAll ((pool.takeMany forward.length).2.takeMany backward.length).1 backward
          ((pool.takeMany forward.length).2.takeMany backward.length).2).2
      obtain ⟨farSize, farCount, farFits⟩ := behind
      obtain ⟨nearSize, nearCount, nearFits⟩ := ahead
      refine ⟨rfl, rfl, nearSize, farSize, ?_, ?_⟩
      · intro other
        have near := Pool.usage_takeMany forward.length pool other
        have far := Pool.usage_takeMany backward.length (pool.takeMany forward.length).2 other
        have nearTotal := nearCount other
        have farTotal := farCount other
        simp only [cloneAs, Ring.members, forestIds_append, List.count_append]
        omega
      · intro imageFits node inside
        rw [nodes_eq, List.mem_cons, List.mem_flatMap] at inside
        rcases inside with same | ⟨child, ofRing, below⟩
        · have own : Ring.Fits value ⟨forward, backward⟩ := imageFits _ (mem_nodes_self _)
          rw [same]
          exact fits_of_lengths own nearSize farSize
        · have childrenFit (list : List Cell) (part : ∀ child ∈ list, child ∈ forward ++ backward) :
              ∀ child ∈ list, ∀ node ∈ child.nodes, node.Fits := by
            intro child member node below
            exact imageFits node (mem_nodes_of_member _ child node (part child member) below)
          rcases List.mem_append.mp ofRing with front | back
          · exact nearFits (childrenFit forward fun child member => List.mem_append_left _ member) child front
              node below
          · exact farFits (childrenFit backward fun child member => List.mem_append_right _ member) child back
              node below

end Cell

namespace Store

/-- The copy that takes the place of a cell, made after everything below the cell is given back. -/
def copyOver (store : Store) (host image : Cell) : Cell × Pool :=
  image.cloneAs host.id (store.pool.give host.descendants)

theorem run_overwrite {store : Store} (sound : store.Sound) {host : Cell} (inside : host ∈ store.nodes)
    (image : Cell) :
    overwrite host.id image store =
      .ok () (store.replace host.id image.value (store.copyOver host image).1.ring
        (store.copyOver host image).2) := by
  have cloned := Cell.cloned_cloneAs image host.id (store.pool.give host.descendants)
  have emptied := sound.clear inside host.value
  have present := host_mem_replace sound.distinct inside host.value Ring.empty
    (store.pool.give host.descendants)
  have same : (store.copyOver host image).1 =
      (host.withRing host.value Ring.empty).withRing image.value (store.copyOver host image).1.ring := by
    rw [← Cell.mk_fields (store.copyOver host image).1]
    simp only [Cell.withRing, copyOver, cloned.slot, cloned.value]
  have distinct : ({ store.replace host.id host.value Ring.empty (store.pool.give host.descendants) with
      pool := (store.copyOver host image).2 } : Store).ids.Nodup := emptied.distinct
  have changed := run_change distinct present (fun _ => (store.copyOver host image).1) image.value
    (store.copyOver host image).1.ring same
  rw [Cell.id_withRing] at changed
  have filled (program : StoreM Cell)
      (ran : program (store.replace host.id host.value Ring.empty (store.pool.give host.descendants)) =
        .ok (store.copyOver host image).1
          { store.replace host.id host.value Ring.empty (store.pool.give host.descendants) with
            pool := (store.copyOver host image).2 }) :
      (program >>= fun copy => change host.id fun _ => copy)
          (store.replace host.id host.value Ring.empty (store.pool.give host.descendants)) =
        .ok () (store.replace host.id image.value (store.copyOver host image).1.ring
          (store.copyOver host image).2) := by
    rw [run_bind_ok ran]
    refine changed.trans (congrArg _ ?_)
    exact replace_replace store host.id host.value _ Ring.empty _ _ _
  rw [overwrite, run_bind_ok (run_reset sound inside)]
  exact filled _ rfl

theorem Sound.overwrite {store : Store} (sound : store.Sound) {host : Cell} (inside : host ∈ store.nodes)
    {image : Cell} (imageFits : ∀ node ∈ image.nodes, node.Fits) :
    (store.replace host.id image.value (store.copyOver host image).1.ring
      (store.copyOver host image).2).Sound := by
  have cloned := Cell.cloned_cloneAs image host.id (store.pool.give host.descendants)
  have copyFits := cloned.fits imageFits
  refine sound.replace inside ?_ ?_ ?_
  · have own := copyFits _ (Cell.mem_nodes_self _)
    rw [← cloned.value]
    exact own
  · intro member ofRing node below
    exact copyFits node (Cell.mem_nodes_of_member _ member node ofRing below)
  · intro id
    have counted := cloned.counted id
    have given := (Cell.descendants_perm host).count_eq id
    rw [Pool.usage_give, given] at counted
    simp only [copyOver]
    omega

theorem run_moveWithin_self {target source : CellId} (same : target = source) (store : Store) :
    moveWithin target source store = .ok () store := by
  rw [moveWithin, if_neg (not_not.mpr same)]
  rfl

/-- Cells on one branch cannot be handed over to each other. -/
theorem run_moveWithin_overlap {store : Store} (sound : store.Sound) {target source : Cell}
    (targetInside : target ∈ store.nodes) (sourceInside : source ∈ store.nodes) (different : target.id ≠ source.id)
    (aligned : source.id ∈ target.ids ∨ target.id ∈ source.ids) :
    moveWithin target.id source.id store = .error (.overlap target.id source.id) store := by
  rw [moveWithin, if_pos different, run_bind_ok (run_isAncestor sound targetInside sourceInside)]
  by_cases below : source.id ∈ target.ids
  · simp only [below, decide_true, if_true]
    rfl
  · simp only [below, decide_false, Bool.false_eq_true, if_false]
    rw [run_bind_ok (run_isAncestor sound sourceInside targetInside)]
    simp only [aligned.resolve_left below, decide_true, if_true]
    rfl

section Moving

variable {store : Store} (sound : store.Sound) {target source : Cell} (targetInside : target ∈ store.nodes)
  (sourceInside : source ∈ store.nodes) (notBelow : source.id ∉ target.ids) (notAbove : target.id ∉ source.ids)

/-- The store in which the target has been emptied and the source has let go of its children. -/
def released (store : Store) (target source : Cell) : Store :=
  (store.replace target.id target.value Ring.empty (store.pool.give target.descendants)).replace source.id
    source.value Ring.empty (store.pool.give target.descendants)

/-- The store in which the target has the value and the ring of the source. -/
def handover (store : Store) (target source : Cell) : Store :=
  (store.released target source).replace target.id source.value source.ring (store.pool.give target.descendants)

include sound targetInside sourceInside notBelow notAbove

/-- The children let go of are all that the forest lacks. -/
theorem forestSound_released :
    Cell.ForestSound (store.released target source).trees (fun id =>
      (store.pool.give target.descendants).usage id - (Cell.forestIds source.ring.members).count id) := by
  have emptied := sound.clear targetInside target.value
  have present := mem_nodes_replace_of_apart sound targetInside sourceInside notBelow notAbove target.value
    Ring.empty (store.pool.give target.descendants)
  refine Cell.ForestSound.replace _ _ emptied present (Ring.fits_empty _) ?_ ?_ ?_
  · intro member ofRing
    simp [Ring.empty, Ring.members] at ofRing
  · intro id
    simp [Ring.empty, Ring.members]
  · intro id
    have most := Pool.usage_le_one (store.pool.give target.descendants) id
    omega

theorem target_mem_released :
    target.withRing target.value Ring.empty ∈ (store.released target source).nodes := by
  have emptied := sound.clear targetInside target.value
  have present := mem_nodes_replace_of_apart sound targetInside sourceInside notBelow notAbove target.value
    Ring.empty (store.pool.give target.descendants)
  have targetPresent := host_mem_replace sound.distinct targetInside target.value Ring.empty
    (store.pool.give target.descendants)
  apply mem_nodes_replace_of_apart emptied present targetPresent
  · exact notAbove
  · intro below
    have same : source.id = target.id := by
      simpa [Cell.ids_eq, Ring.empty, Ring.members] using below
    exact notBelow ((Cell.mem_ids _ _).mpr ⟨target, Cell.mem_nodes_self target, same.symm⟩)

/-- Handing over: the target gets the value and the ring of the source, which keeps its value. -/
theorem run_moveWithin :
    moveWithin target.id source.id store = .ok () (store.handover target source) := by
  have emptied := sound.clear targetInside target.value
  have different : target.id ≠ source.id := fun same =>
    notBelow ((Cell.mem_ids _ _).mpr ⟨target, Cell.mem_nodes_self target, same⟩)
  have present := mem_nodes_replace_of_apart sound targetInside sourceInside notBelow notAbove target.value
    Ring.empty (store.pool.give target.descendants)
  have distinct : (store.released target source).ids.Nodup :=
    (forestSound_released sound targetInside sourceInside notBelow notAbove).distinct
  have targetPresent := target_mem_released sound targetInside sourceInside notBelow notAbove
  have changed := run_change distinct targetPresent
    (fun cell => { cell with value := source.value, ring := source.ring }) source.value source.ring rfl
  rw [moveWithin, if_pos different, run_bind_ok (run_isAncestor sound targetInside sourceInside)]
  simp only [notBelow, decide_false, Bool.false_eq_true, if_false]
  rw [run_bind_ok (run_isAncestor sound sourceInside targetInside)]
  simp only [notAbove, decide_false, Bool.false_eq_true, if_false]
  rw [run_bind_ok (run_reset sound targetInside),
    run_bind_ok (run_cell_of_some (cell?_of_mem emptied.distinct present)),
    run_bind_ok (run_setRing emptied.distinct present Ring.empty)]
  exact changed

theorem sound_moveWithin : (store.handover target source).Sound := by
  have released := forestSound_released sound targetInside sourceInside notBelow notAbove
  have targetPresent := target_mem_released sound targetInside sourceInside notBelow notAbove
  have inner : ∀ member ∈ source.ring.members, ∀ node ∈ member.nodes, node.Fits := by
    intro member ofRing node below
    exact sound.rings node
      (Cell.forestNodes_subset _ _ (member_mem_nodes sourceInside ofRing) _ below)
  have counted (id : CellId) : (store.pool.give target.descendants).usage id +
      (Cell.forestIds (target.withRing target.value Ring.empty).ring.members).count id =
        (store.pool.give target.descendants).usage id - (Cell.forestIds source.ring.members).count id +
          (Cell.forestIds source.ring.members).count id := by
    simp [Ring.empty, Ring.members]
  have moved := Cell.ForestSound.replace source.value source.ring released targetPresent
    (sound.rings source sourceInside) inner counted (Pool.usage_le_one _)
  exact moved

end Moving

end Store

end RingTape
