import RingTape.Proofs.Mirroring

/-!
Copying between arenas. One round of the worklist gives the target the value of its image and as many new children as
the image has, and puts every pair of a new child and its image on the worklist. The rounds end because each child of
the image has a smaller subtree. In the end a copy of the image, in the slots in which the store puts it, is grafted on
the target.
-/

namespace RingTape

set_option autoImplicit false

namespace Cell

theorem cloneAll_append {near far : List CellId} {forward backward : List Cell} (same : near.length = forward.length)
    (pool : Pool) :
    cloneAll (near ++ far) (forward ++ backward) pool =
      ((cloneAll near forward (cloneAll far backward pool).2).1 ++ (cloneAll far backward pool).1,
        (cloneAll near forward (cloneAll far backward pool).2).2) := by
  induction forward generalizing near with
  | nil =>
      rw [List.eq_nil_of_length_eq_zero same]
      rfl
  | cons image rest induction =>
      cases near with
      | nil => cases same
      | cons id near =>
          have others := induction (Nat.succ.inj same)
          simp only [List.cons_append, cloneAll, others]

theorem map_id_cloneAll {ids : List CellId} {images : List Cell} (same : ids.length = images.length) (pool : Pool) :
    (cloneAll ids images pool).1.map Cell.id = ids := by
  induction images generalizing ids with
  | nil =>
      rw [List.eq_nil_of_length_eq_zero same]
      rfl
  | cons image rest induction =>
      cases ids with
      | nil => cases same
      | cons id ids =>
          have others := induction (Nat.succ.inj same)
          have slot := (cloned_cloneAs image id (cloneAll ids rest pool).2).slot
          simp only [cloneAll, List.map_cons, others, slot]

/-- The members of the ring of a copy get their slots at once, and are copied from the last one to the first. -/
theorem members_cloneAs (image : Cell) (id : CellId) (pool : Pool) :
    cloneAll (pool.takeRing image.ring).1.members image.ring.members (pool.takeRing image.ring).2 =
      ((image.cloneAs id pool).1.ring.members, (image.cloneAs id pool).2) := by
  rcases image with ⟨slot, value, ⟨forward, backward⟩⟩
  exact cloneAll_append (Pool.length_takeMany _ _) _

theorem entry_cloneAs (image : Cell) (id : CellId) (pool : Pool) :
    (image.cloneAs id pool).1.entry = ⟨image.value, (pool.takeRing image.ring).1⟩ := by
  rcases image with ⟨slot, value, ⟨forward, backward⟩⟩
  have near := map_id_cloneAll (Pool.length_takeMany forward.length pool)
  have far := map_id_cloneAll (Pool.length_takeMany backward.length (pool.takeMany forward.length).2)
  simp only [entry, cloneAs, Pool.takeRing, Ring.map, near, far]

end Cell

namespace Arena

noncomputable def setValue (arena : Arena) (id : CellId) (value : Num) : Option Arena := do
  let arena ← arena.reset id
  arena.edit id fun fields => { fields with value := value }

/-- Make the first cell of a worklist a copy of its image, with children that are to become copies. -/
noncomputable def copyRound (source : Arena) (onward : Arena × List (CellId × CellId) → Option Arena) :
    Arena × List (CellId × CellId) → Option Arena
  | (arena, []) => some arena
  | (arena, (target, original) :: rest) => do
      let image ← source.slots original
      let arena ← arena.setValue target image.value
      let (originals, closed) ← source.materialized original
      let (copies, arena) ← arena.mirror target image.instantiated originals closed
      onward (arena, (copies.members.zip originals.members).reverse ++ rest)

/-- Make the cells of a worklist copies of their images in another arena. -/
noncomputable def copyAll (source arena : Arena) (pending : List (CellId × CellId)) : Option Arena :=
  Recursion.solve source.copyRound (arena, pending)

noncomputable def copyFrom (arena : Arena) (target : CellId) (source : Arena) (original : CellId) : Option Arena :=
  copyAll source arena [(target, original)]

theorem copyAll_eq (source arena : Arena) (pending : List (CellId × CellId)) :
    copyAll source arena pending = source.copyRound (fun state => copyAll source state.1 state.2) (arena, pending) := by
  refine Recursion.solve_eq (fun state => ?_) (arena, pending)
  rcases state with ⟨arena, pending⟩
  cases pending with
  | nil => exact Recursion.finitary_const _
  | cons first rest =>
      exact (Recursion.finitary_const _).bind fun _ => (Recursion.finitary_const _).bind fun _ =>
        (Recursion.finitary_const _).bind fun _ => (Recursion.finitary_const _).bind fun _ => Recursion.finitary_call _

/-- An arena in which cells without children became copies. -/
structure Grafts (before after : Arena) (copies : List Cell) (pool : Pool) : Prop where
  accounted : after.Accounted
  pool : after.pool = pool
  own : ∀ copy ∈ copies, after.slots copy.id = (before.slots copy.id).map fun fields =>
    { fields with
      value := copy.value
      instantiated := copy.instantiated
      firstChild := copy.ring.forward.head?.map Cell.id }
  below : ∀ node ∈ Cell.forestNodes copies, after.Lays node
  elsewhere : ∀ id ∉ Cell.forestIds copies, after.slots id = before.slots id

section Grafting

variable {arena : Arena} (accounted : arena.Accounted)

include accounted

/-- Copies that are made in the slots of different cells have no slot in common. -/
theorem Accounted.nodup_copies {ids : List CellId} (once : ids.Nodup) (live : ∀ id ∈ ids, arena.slots id ≠ none)
    {images : List Cell} (same : ids.length = images.length) :
    (Cell.forestIds (Cell.cloneAll ids images arena.pool).1).Nodup := by
  have counted := (Cell.cloneAll_spec images (fun image _ => Cell.cloned_cloneAs image) ids same arena.pool).2.1
  rw [List.nodup_iff_count_le_one]
  intro id
  have total := counted id
  have most := Pool.usage_le_one (Cell.cloneAll ids images arena.pool).2 id
  have used := accounted id
  have listed := List.nodup_iff_count_le_one.mp once id
  by_cases among : id ∈ ids
  · rw [if_pos (Option.isSome_iff_ne_none.mpr (live id among))] at used
    omega
  · have absent := List.count_eq_zero_of_not_mem among
    have some : 0 ≤ arena.pool.usage id := by
      rw [used]
      split <;> omega
    omega

end Grafting

/-- A copy is grafted after the ones that follow it. -/
theorem Grafts.cons {before between after : Arena} {copy : Cell} {copies : List Cell} {middle pool : Pool}
    (distinct : (Cell.forestIds (copy :: copies)).Nodup) (others : Grafts before between copies middle)
    (first : Grafts between after [copy] pool) : Grafts before after (copy :: copies) pool := by
  rw [Cell.forestIds_cons, List.nodup_append] at distinct
  have apart {id : CellId} (among : id ∈ Cell.forestIds copies) : id ∉ Cell.forestIds [copy] := by
    rw [Cell.forestIds_singleton]
    intro own
    exact distinct.2.2 id own id among rfl
  refine ⟨first.accounted, first.pool, ?_, ?_, ?_⟩
  · intro cell member
    rcases List.mem_cons.mp member with rfl | later
    · rw [first.own cell List.mem_cons_self, others.elsewhere cell.id]
      intro among
      exact distinct.2.2 cell.id cell.id_mem_ids cell.id among rfl
    · rw [first.elsewhere cell.id (apart (Cell.id_mem_forestIds later)), others.own cell later]
  · intro node inside
    rcases (Cell.mem_forestNodes _ _).mp inside with ⟨top, member, under⟩
    rcases List.mem_cons.mp member with rfl | later
    · exact first.below node ((Cell.mem_forestNodes _ _).mpr ⟨top, List.mem_cons_self, under⟩)
    · refine (others.below node ((Cell.mem_forestNodes _ _).mpr ⟨top, later, under⟩)).congr ?_
      intro child ofRing
      refine first.elsewhere child.id (apart ((Cell.mem_forestIds_iff_mem_ids _ _).mpr ⟨top, later, ?_⟩))
      exact Cell.mem_ids_of_entry under ((node.mem_members_entry _).mpr (List.mem_map_of_mem ofRing))
  · intro id outside
    rw [Cell.forestIds_cons, List.mem_append, not_or] at outside
    rw [first.elsewhere id (copy.forestIds_singleton ▸ outside.1), others.elsewhere id outside.2]

/-- A round of the worklist and all rounds that it brings about. -/
def Copies (source : Arena) (image : Cell) : Prop :=
  ∀ {arena : Arena} {target : CellId}, arena.Accounted → arena.Blank target → ∀ stack,
    ∃ later, copyAll source arena ((target, image.id) :: stack) = copyAll source later stack ∧
      Grafts arena later [(image.cloneAs target arena.pool).1] (image.cloneAs target arena.pool).2

/-- A worklist is copied from its end. -/
theorem copies_all {source : Arena} {images : List Cell} (each : ∀ image ∈ images, source.Copies image)
    {arena : Arena} (accounted : arena.Accounted) {ids : List CellId} (once : ids.Nodup)
    (blank : ∀ id ∈ ids, arena.Blank id) (same : ids.length = images.length) (stack : List (CellId × CellId)) :
    ∃ later, copyAll source arena ((ids.zip (images.map Cell.id)).reverse ++ stack) = copyAll source later stack ∧
      Grafts arena later (Cell.cloneAll ids images arena.pool).1 (Cell.cloneAll ids images arena.pool).2 := by
  induction images generalizing ids stack with
  | nil =>
      rw [List.eq_nil_of_length_eq_zero same]
      refine ⟨arena, rfl, accounted, rfl, ?_, ?_, fun _ _ => rfl⟩
      · simp [Cell.cloneAll]
      · simp [Cell.cloneAll, Cell.forestNodes]
  | cons image rest induction =>
      cases ids with
      | nil => cases same
      | cons id ids =>
          have distinct := accounted.nodup_copies once (fun other listed => (blank other listed).live) same
          obtain ⟨between, ranOthers, others⟩ := induction
            (fun other later => each other (List.mem_cons_of_mem _ later)) (List.nodup_cons.mp once).2
            (fun other later => blank other (List.mem_cons_of_mem _ later)) (Nat.succ.inj same)
            ((id, image.id) :: stack)
          have untouched : id ∉ Cell.forestIds (Cell.cloneAll ids rest arena.pool).1 := by
            intro among
            have slot := (Cell.cloned_cloneAs image id (Cell.cloneAll ids rest arena.pool).2).slot
            rw [Cell.cloneAll, Cell.forestIds_cons, List.nodup_append] at distinct
            have own := Cell.id_mem_ids (image.cloneAs id (Cell.cloneAll ids rest arena.pool).2).1
            rw [slot] at own
            exact distinct.2.2 id own id among rfl
          have stillBlank : between.Blank id := by
            obtain ⟨fields, found, childless⟩ := blank id List.mem_cons_self
            exact ⟨fields, (others.elsewhere id untouched).trans found, childless⟩
          obtain ⟨later, ranFirst, first⟩ := each image List.mem_cons_self others.accounted stillBlank stack
          rw [others.pool] at first
          refine ⟨later, ?_, others.cons distinct first⟩
          rw [List.map_cons, List.zip_cons_cons, List.reverse_cons, List.append_assoc]
          exact ranOthers.trans ranFirst

/-- There is nothing to discard below a cell without children. -/
theorem Blank.reset {arena : Arena} {id : CellId} (blank : arena.Blank id) : arena.reset id = some arena := by
  obtain ⟨⟨_, _, _, _, _, _⟩, found, rfl, rfl⟩ := blank
  have kept : arena.orphan id = arena := by
    refine Arena.eq_mk (funext fun other => ?_) rfl
    by_cases same : other = id
    · rw [same, orphan, slots_amend_self, found]
      rfl
    · exact arena.slots_amend_of_ne _ same
  rw [Arena.reset, unhook, found]
  show (arena.orphan id).drain [] = some arena
  rw [drain_eq, kept]
  rfl

theorem Blank.setValue {arena : Arena} {id : CellId} (blank : arena.Blank id) (value : Num) :
    arena.setValue id value = some (arena.amend id fun fields => { fields with value := value }) := by
  rw [Arena.setValue, blank.reset]
  exact arena.edit_eq blank.live _

/-- A copy is the ring of its children and their copies below it. -/
theorem Mirrored.graft {before between after : Arena} {target : CellId} {copy : Cell} {pool : Pool}
    (slot : copy.id = target)
    (mirrored : Mirrored (before.amend target fun fields => { fields with value := copy.value }) between target
      copy.entry)
    (children : Grafts between after copy.ring.members pool) (distinct : (Cell.forestIds [copy]).Nodup) :
    Grafts before after [copy] pool := by
  subst slot
  have apart : copy.id ∉ Cell.forestIds copy.ring.members := by
    rw [Cell.forestIds_singleton, Cell.ids_eq] at distinct
    exact (List.nodup_cons.mp distinct).1
  have members : copy.entry.ring.members = copy.ring.members.map Cell.id := Ring.members_map _ _
  have size : copy.entry.ring.size = copy.instantiated := Ring.size_map _ _
  have first : copy.entry.ring.forward.head? = copy.ring.forward.head?.map Cell.id := List.head?_map
  refine ⟨children.accounted, children.pool, ?_, ?_, ?_⟩
  · intro cell isCopy
    rw [List.mem_singleton.mp isCopy, children.elsewhere copy.id apart, mirrored.own, slots_amend_self, Option.map_map,
      size, first]
    rfl
  · intro node inside
    rw [Cell.forestNodes_eq, List.flatMap_singleton, Cell.nodes_eq, List.mem_cons, ← Cell.forestNodes_eq] at inside
    rcases inside with rfl | below
    · intro child ofRing
      have listed : child.id ∈ node.entry.ring.members := members ▸ List.mem_map_of_mem ofRing
      rw [children.own child ofRing, mirrored.made child.id listed]
      rfl
    · exact children.below node below
  · intro id outside
    rw [Cell.forestIds_singleton, Cell.ids_eq, List.mem_cons, not_or] at outside
    have unlisted : id ∉ copy.entry.ring.members := by
      rw [members]
      intro listed
      obtain ⟨child, ofRing, rfl⟩ := List.mem_map.mp listed
      exact outside.2 (Cell.id_mem_forestIds ofRing)
    rw [children.elsewhere id outside.2, mirrored.elsewhere id outside.1 unlisted]
    exact before.slots_amend_of_ne _ outside.1

/-- Every image is copied in finitely many rounds, because its children are. -/
theorem LaysOut.copies {source : Arena} {cells : List Cell} (laid : source.LaysOut cells) {image : Cell}
    (inside : image ∈ Cell.forestNodes cells) : source.Copies image := by
  induction image using Cell.treeInduction with
  | step image induction =>
      have each (child : Cell) (ofRing : child ∈ image.ring.members) : source.Copies child :=
        induction child ofRing (Cell.forestNodes_subset _ _ inside _
          (Cell.mem_nodes_of_member image child child ofRing (Cell.mem_nodes_self child)))
      intro arena target accounted blank stack
      obtain ⟨fields, found, value, count, _⟩ := laid.bears_node inside
      have fits : (image.ring.map Cell.id).Fits image.value := Ring.Fits.map (laid.rings image inside) Cell.id
      have set := blank.setValue image.value
      have ready : (arena.amend target fun fields => { fields with value := image.value }).Blank target := by
        obtain ⟨fields, slot, childless⟩ := blank
        refine ⟨{ fields with value := image.value }, ?_, childless⟩
        rw [slots_amend_self, slot]
        rfl
      obtain ⟨between, ran, pool, mirrored⟩ := mirror_spec (accounted.amend target _) ready fits
      have size : (image.ring.map Cell.id).size = image.instantiated := Ring.size_map _ _
      have closed : (image.ring.map Cell.id).isClosed image.value = image.isClosed := Ring.isClosed_map _ _ _
      have kept : (arena.amend target fun fields => { fields with value := image.value }).pool = arena.pool := rfl
      rw [kept, Pool.takeRing_map] at ran pool mirrored
      rw [closed, size] at ran
      have length : (arena.pool.takeRing image.ring).1.members.length = image.ring.members.length := by
        simp only [Pool.takeRing, Ring.members, List.length_append, Pool.length_takeMany]
      have childBlank (id : CellId) (listed : id ∈ (arena.pool.takeRing image.ring).1.members) : between.Blank id :=
        ⟨_, mirrored.made id listed, rfl, rfl⟩
      obtain ⟨later, rounds, children⟩ := copies_all each mirrored.accounted mirrored.once childBlank length stack
      rw [pool, Cell.members_cloneAs image target arena.pool] at children
      have cloned := Cell.cloned_cloneAs image target arena.pool
      have distinct : (Cell.forestIds (Cell.cloneAll [target] [image] arena.pool).1).Nodup := by
        refine accounted.nodup_copies (List.nodup_singleton target) ?_ rfl
        intro id listed
        rw [List.mem_singleton.mp listed]
        exact blank.live
      refine ⟨later, ?_, ?_⟩
      · rw [copyAll_eq, copyRound, found]
        simp only [Option.bind_eq_bind, Option.bind_some]
        rw [value, set, count, Option.bind_some, laid.materialized inside, Option.bind_some, ran, Option.bind_some]
        rw [Ring.members_map]
        exact rounds
      · rw [← Cell.entry_cloneAs image target arena.pool, ← cloned.value] at mirrored
        exact mirrored.graft cloned.slot children distinct

/-- A copy depends on the arena after the target was cleared. -/
theorem copyFrom_congr {arena cleared : Arena} {target : CellId} (reset : arena.reset target = some cleared)
    (again : cleared.reset target = some cleared) (source : Arena) (original : CellId) :
    arena.copyFrom target source original = cleared.copyFrom target source original := by
  have set (value : Num) : arena.setValue target value = cleared.setValue target value := by
    rw [setValue, setValue, reset, again]
  rw [copyFrom, copyFrom, copyAll_eq, copyAll_eq source cleared]
  simp only [copyRound, set]

end Arena

namespace Store

theorem Sound.accounted {store : Store} (sound : store.Sound) : store.arena.Accounted := by
  intro id
  have used : ((store.ids.count id : Nat) : Int) = store.pool.usage id := sound.slots id
  show store.pool.usage id = _
  rw [← used]
  by_cases live : id ∈ store.ids
  · obtain ⟨fields, found, _⟩ := exists_fields sound live
    rw [found, List.count_eq_one_of_mem sound.distinct live]
    rfl
  · have absent : store.arena.slots id = none := fields?_eq_none live
    rw [absent, List.count_eq_zero_of_not_mem live]
    rfl

section Overwriting

variable {store other : Store} (sound : store.Sound) (otherSound : other.Sound) {host image : Cell}
  (inside : host ∈ store.nodes) (imageInside : image ∈ other.nodes)

include sound inside

/-- A cell that was cleared has no children. -/
theorem Sound.blank :
    (store.replace host.id host.value Ring.empty (store.pool.give host.descendants)).arena.Blank host.id := by
  have present := host_mem_replace sound.distinct inside host.value Ring.empty (store.pool.give host.descendants)
  have found := fields?_of_mem (sound.clear inside host.value).distinct present
  rw [Cell.id_withRing] at found
  exact ⟨_, found, rfl, rfl⟩

include otherSound imageInside

/-- Copying in the arenas of two stores gives the arena of the store after copying. -/
theorem copyFrom_arena : store.arena.copyFrom host.id other.arena image.id =
    some (store.replace host.id image.value (store.copyOver host image).1.ring
      (store.copyOver host image).2).arena := by
  have emptied := sound.clear inside host.value
  have present := host_mem_replace sound.distinct inside host.value Ring.empty (store.pool.give host.descendants)
  have blank := sound.blank inside
  have cloned : image.Cloned (store.copyOver host image).1 host.id _ (store.copyOver host image).2 :=
    Cell.cloned_cloneAs image host.id (store.pool.give host.descendants)
  obtain ⟨later, rounds, grafts⟩ := otherSound.laysOut.copies imageInside emptied.accounted blank []
  change Arena.Grafts _ later [(store.copyOver host image).1] (store.copyOver host image).2 at grafts
  have ended : Arena.copyAll other.arena later [] = some later := by rw [Arena.copyAll_eq]; rfl
  rw [Arena.copyFrom_congr (reset_arena sound inside) blank.reset, Arena.copyFrom, rounds, ended]
  have again := replace_replace store host.id host.value image.value Ring.empty (store.copyOver host image).1.ring
    (store.pool.give host.descendants) (store.copyOver host image).2
  rw [← again]
  have copied : (host.withRing host.value Ring.empty).withRing image.value (store.copyOver host image).1.ring =
      (store.copyOver host image).1 := by
    rw [← Cell.mk_fields (store.copyOver host image).1]
    simp only [Cell.withRing, cloned.slot, cloned.value]
  refine congrArg some (arena_replace emptied.distinct present ?_ grafts.pool ?_ ?_ ?_ ?_)
  · rw [Cell.id_withRing, again]
    refine (sound.overwrite inside ?_).distinct
    intro node under
    exact otherSound.rings node (Cell.forestNodes_subset _ _ imageInside _ under)
  · have own := grafts.own _ List.mem_cons_self
    rw [cloned.slot, cloned.value] at own
    exact own
  · rw [copied]
    intro node under
    exact grafts.below node ((Cell.mem_forestNodes _ _).mpr ⟨_, List.mem_cons_self, under⟩)
  · intro id below
    exact absurd below List.not_mem_nil
  · intro id outside notBelow
    refine grafts.elsewhere id ?_
    rw [Cell.forestIds_singleton, Cell.ids_eq, List.mem_cons, not_or,
      cloned.slot]
    exact ⟨fun same => outside (same ▸ Cell.id_mem_ids _), notBelow⟩

end Overwriting

end Store

end RingTape
