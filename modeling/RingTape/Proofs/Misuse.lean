import RingTape.Proofs.Atomicity
import RingTape.Proofs.Handover

/-!
Faults and what they blame. On live cells of a well-formed store an operation fails just if it is misused, the fault
names the cells to blame, and nothing has changed. Several operations go on to others that can fail after they have made
new cells; those inner failures are impossible, since by then the cell that matters is known to be a member of a ring.
-/

namespace RingTape

set_option autoImplicit false

namespace Store

/-- The fault that a program ends with, if it fails. -/
def faultOf {α : Type} (program : StoreM α) (store : Store) : Option Fault :=
  match program store with
  | .ok _ _ => none
  | .error fault _ => some fault

/-- The program fails with the given faults and no others, and if it does then the store is as it was. -/
def FailsJust {α : Type} (store : Store) (program : StoreM α) (blames : Fault → Prop) : Prop :=
  (∀ fault, faultOf program store = some fault ↔ blames fault) ∧
    (faultOf program store ≠ none → leave program store = store)

section FailsJust

variable {α : Type} {store : Store} {program : StoreM α} {blames : Fault → Prop}

theorem failsJust_of_ok {result : α} {reached : Store} (ran : program store = .ok result reached)
    (blameless : ∀ fault, ¬ blames fault) : FailsJust store program blames := by
  have none : faultOf program store = none := by rw [faultOf, ran]
  refine ⟨fun fault => ?_, fun failed => absurd none failed⟩
  rw [none]
  exact iff_of_false nofun (blameless fault)

theorem failsJust_of_error {fault : Fault} (ran : program store = .error fault store) (blamed : blames fault)
    (alone : ∀ other, blames other → other = fault) : FailsJust store program blames := by
  have some : faultOf program store = some fault := by rw [faultOf, ran]
  refine ⟨fun other => ?_, fun _ => leave_of_error ran⟩
  rw [some, Option.some.injEq]
  constructor
  · rintro rfl
    exact blamed
  · exact fun also => (alone other also).symm

theorem failsJust_never {result : α} {reached : Store} (ran : program store = .ok result reached) :
    FailsJust store program fun _ => False :=
  failsJust_of_ok ran fun _ => id

theorem failsJust_modifyGet (change : Store → α × Store) :
    FailsJust store (modifyGet change : StoreM α) fun _ => False :=
  failsJust_never rfl

end FailsJust

section Faults

variable {store : Store} (sound : store.Sound)

theorem parentLink_eq_none_iff (id : CellId) : store.parentLink id = none ↔ store.parent? id = none :=
  Option.map_eq_none_iff

theorem value?_of_mem (distinct : store.ids.Nodup) {cell : Cell} (inside : cell ∈ store.nodes) :
    store.value? cell.id = some cell.value := by
  rw [value?, cell?_of_mem distinct inside, Option.map_some]

include sound

/-- An operation on siblings needs a parent and nothing else. -/
theorem NeedsParent.failsJust {α : Type} {program : StoreM α} {holds : α → Store → Prop} {id : CellId}
    (needs : NeedsParent store id program holds) (live : store.contains id = true) :
    FailsJust store program fun fault => store.parentLink id = none ∧ fault = .detached id := by
  cases found : store.parent? id with
  | none =>
      obtain ⟨node, inside, rfl⟩ := exists_node_of_mem_ids ((contains_iff _).mp live)
      have refused := run_parentOf_detached (cell?_of_mem sound.distinct inside) found
      exact failsJust_of_error (needs.refused _ refused) ⟨(parentLink_eq_none_iff _).mpr found, rfl⟩
        fun _ blamed => blamed.2
  | some host =>
      obtain ⟨inside, index, member, seat, same⟩ := seat_of_parent? sound found
      obtain ⟨result, reached, ran, _⟩ := needs.seated host member index inside seat same
      apply failsJust_of_ok ran
      rintro fault ⟨top, _⟩
      rw [parentLink_eq_none_iff, found] at top
      cases top

theorem failsJust_child {id : CellId} (live : store.contains id = true) :
    FailsJust store (child id) fun fault =>
      ∃ value, store.value? id = some value ∧ value ≤ 0 ∧ fault = .barren id value := by
  obtain ⟨host, inside, rfl⟩ := exists_node_of_mem_ids ((contains_iff _).mp live)
  have known := value?_of_mem sound.distinct inside
  have childless : host.value.places = 0 ↔ host.value ≤ 0 := by
    rw [Int64.le_iff_toInt_le, Int64.toInt_zero, Num.places]
    omega
  by_cases barren : host.value.places = 0
  · apply failsJust_of_error (run_child_barren sound.distinct inside (sound.rings host inside) barren)
    · exact ⟨host.value, known, childless.mp barren, rfl⟩
    · rintro other ⟨value, read, _, rfl⟩
      cases known.symm.trans read
      rfl
  · obtain ⟨first, ring, pool, ran, _, _⟩ := run_child sound inside (Nat.pos_of_ne_zero barren)
    apply failsJust_of_ok ran
    rintro fault ⟨value, read, low, _⟩
    cases known.symm.trans read
    exact barren (childless.mpr low)

theorem failsJust_discard {id : CellId} (live : store.contains id = true) :
    FailsJust store (discard id) fun fault => store.parentLink id ≠ none ∧ fault = .attached id := by
  obtain ⟨node, inside, rfl⟩ := exists_node_of_mem_ids ((contains_iff _).mp live)
  rw [Ne, parentLink_eq_none_iff]
  cases found : store.parent? node.id with
  | none =>
      apply failsJust_of_ok (run_discard sound ((mem_trees_iff sound inside).mpr found))
      exact fun _ blamed => blamed.1 rfl
  | some owner =>
      apply failsJust_of_error (run_discard_attached sound inside found) ⟨nofun, rfl⟩
      exact fun _ blamed => blamed.2

theorem failsJust_reset {id : CellId} (live : store.contains id = true) :
    FailsJust store (reset id) fun _ => False := by
  obtain ⟨host, inside, rfl⟩ := exists_node_of_mem_ids ((contains_iff _).mp live)
  exact failsJust_never (run_reset sound inside)

theorem failsJust_setValue {id : CellId} (live : store.contains id = true) (value : Num) :
    FailsJust store (setValue id value) fun _ => False := by
  obtain ⟨host, inside, rfl⟩ := exists_node_of_mem_ids ((contains_iff _).mp live)
  exact failsJust_never (run_setValue sound inside value)

theorem failsJust_copyFrom {target source : CellId} {other : Store} (targetLive : store.contains target = true)
    (sourceLive : other.contains source = true) :
    FailsJust store (copyFrom target other source) fun _ => False := by
  obtain ⟨host, inside, rfl⟩ := exists_node_of_mem_ids ((contains_iff _).mp targetLive)
  obtain ⟨image, found⟩ := Option.isSome_iff_exists.mp sourceLive
  rw [copyFrom, found]
  exact failsJust_never (run_overwrite sound inside image)

theorem failsJust_copyWithin {target source : CellId} (targetLive : store.contains target = true)
    (sourceLive : store.contains source = true) : FailsJust store (copyWithin target source) fun _ => False := by
  by_cases same : target = source
  · have kept : copyWithin target source store = .ok () store := by
      rw [copyWithin, if_neg (not_not.mpr same)]
      rfl
    exact failsJust_never kept
  · rw [copyWithin, if_pos same]
    exact failsJust_copyFrom sound targetLive sourceLive

/-- What can be wrong with a graft, in the order of the checks: each is made only if those before it have passed. -/
inductive Ungraftable (store : Store) (parent child : CellId) : Fault → Prop
  | attached (owned : store.parentLink child ≠ none) : Ungraftable store parent child (.attached child)
  | overlap (top : store.parentLink child = none) (within : parent = child ∨ store.Descends parent child) :
      Ungraftable store parent child (.overlap parent child)
  | barren {value : Num} (top : store.parentLink child = none)
      (apart : ¬ (parent = child ∨ store.Descends parent child)) (known : store.value? parent = some value)
      (negative : value < 0) : Ungraftable store parent child (.barren parent value)

theorem failsJust_insertChild {parent child : CellId} (parentLive : store.contains parent = true)
    (childLive : store.contains child = true) :
    FailsJust store (insertChild parent child) (Ungraftable store parent child) := by
  obtain ⟨host, inside, rfl⟩ := exists_node_of_mem_ids ((contains_iff _).mp parentLive)
  obtain ⟨branch, branchInside, rfl⟩ := exists_node_of_mem_ids ((contains_iff _).mp childLive)
  have known := value?_of_mem sound.distinct inside
  have under := mem_ids_iff_descends sound branchInside host.id
  -- The cases are the checks; past all of them the graft makes what is missing of the ring, which cannot fail.
  by_cases top : store.parentLink branch.id = none
  · have isTop := (mem_trees_iff sound branchInside).mpr ((parentLink_eq_none_iff _).mp top)
    by_cases within : host.id = branch.id ∨ store.Descends host.id branch.id
    · apply failsJust_of_error (run_insertChild_overlap sound inside isTop (under.mpr within)) (.overlap top within)
      intro other blamed
      cases blamed with
      | attached owned => exact absurd top owned
      | overlap => rfl
      | barren _ apart => exact absurd within apart
    have apart : host.id ∉ branch.ids := fun below => within (under.mp below)
    by_cases negative : host.value < 0
    · apply failsJust_of_error (run_insertChild_barren sound inside isTop apart negative)
        (.barren top within known negative)
      intro other blamed
      cases blamed with
      | attached owned => exact absurd top owned
      | overlap _ also => exact absurd also within
      | barren _ _ read =>
          cases known.symm.trans read
          rfl
    · have nonnegative : 0 ≤ host.value.toInt := by
        rw [Int64.lt_iff_toInt_lt, Int64.toInt_zero] at negative
        omega
      obtain ⟨wide, between, ran, _⟩ := run_insertChild sound inside isTop apart nonnegative
      apply failsJust_of_ok ran
      intro fault blamed
      cases blamed with
      | attached owned => exact owned top
      | overlap _ also => exact within also
      | barren _ _ read low =>
          cases known.symm.trans read
          exact negative low
  · obtain ⟨owner, found⟩ := Option.ne_none_iff_exists'.mp (mt (parentLink_eq_none_iff _).mpr top)
    apply failsJust_of_error (run_insertChild_attached sound branchInside found host.id) (.attached top)
    intro other blamed
    cases blamed with
    | attached => rfl
    | overlap free => exact absurd free top
    | barren free => exact absurd free top

theorem failsJust_moveWithin {target source : CellId} (targetLive : store.contains target = true)
    (sourceLive : store.contains source = true) :
    FailsJust store (moveWithin target source) fun fault =>
      (store.Descends target source ∨ store.Descends source target) ∧ fault = .overlap target source := by
  by_cases same : target = source
  · apply failsJust_of_ok (run_moveWithin_self same store)
    intro fault blamed
    rw [same, or_self] at blamed
    exact acyclic_of_sound sound source blamed.1
  · obtain ⟨taker, takerInside, rfl⟩ := exists_node_of_mem_ids ((contains_iff _).mp targetLive)
    obtain ⟨giver, giverInside, rfl⟩ := exists_node_of_mem_ids ((contains_iff _).mp sourceLive)
    rw [← aligned_iff_descends sound takerInside giverInside same]
    by_cases aligned : giver.id ∈ taker.ids ∨ taker.id ∈ giver.ids
    · apply failsJust_of_error (run_moveWithin_overlap sound takerInside giverInside same aligned) ⟨aligned, rfl⟩
      exact fun _ blamed => blamed.2
    · have apart := not_or.mp aligned
      apply failsJust_of_ok (run_moveWithin sound takerInside giverInside apart.1 apart.2)
      exact fun _ blamed => aligned blamed.1

end Faults

end Store

namespace Operation

open Store (faultOf)

/-- The fault that an operation ends with, if it fails. -/
def fault? (stores : Nat → Store) (store : Store) : Operation → Option Fault
  | alloc value => faultOf (Store.alloc value) store
  | ofBytes bytes => faultOf (Store.ofBytes bytes) store
  | discard id => faultOf (Store.discard id) store
  | setValue id value => faultOf (Store.setValue id value) store
  | reset id => faultOf (Store.reset id) store
  | child id => faultOf (Store.child id) store
  | prev id => faultOf (Store.prev id) store
  | next id => faultOf (Store.next id) store
  | shiftBack id count => faultOf (Store.shiftBack id count) store
  | shiftForward id count => faultOf (Store.shiftForward id count) store
  | makeFirst id => faultOf (Store.makeFirst id) store
  | insertBefore id value => faultOf (Store.insertBefore id value) store
  | insertAfter id value => faultOf (Store.insertAfter id value) store
  | deleteBefore id => faultOf (Store.deleteBefore id) store
  | deleteAfter id => faultOf (Store.deleteAfter id) store
  | insertChild host branch => faultOf (Store.insertChild host branch) store
  | copyFrom target other source => faultOf (Store.copyFrom target (stores other) source) store
  | copyWithin target source => faultOf (Store.copyWithin target source) store
  | moveWithin target source => faultOf (Store.moveWithin target source) store

/-- Whether all cells that an operation names are there. -/
def finds (stores : Nat → Store) (store : Store) : Operation → Bool
  | alloc _ | ofBytes _ => true
  | discard id | setValue id _ | reset id | child id | prev id | next id | shiftBack id _ | shiftForward id _
  | makeFirst id | insertBefore id _ | insertAfter id _ | deleteBefore id | deleteAfter id => store.contains id
  | copyFrom target other source => store.contains target && (stores other).contains source
  | insertChild first second | copyWithin first second | moveWithin first second =>
      store.contains first && store.contains second

/-- What is wrong with an operation on live cells, and the fault that says so. -/
def Misuse (store : Store) (fault : Fault) : Operation → Prop
  | prev id | next id | shiftBack id _ | shiftForward id _ | makeFirst id | insertBefore id _ | insertAfter id _
  | deleteBefore id | deleteAfter id => store.parentLink id = none ∧ fault = .detached id
  | child id => ∃ value, store.value? id = some value ∧ value ≤ 0 ∧ fault = .barren id value
  | discard id => store.parentLink id ≠ none ∧ fault = .attached id
  | insertChild host branch => store.Ungraftable host branch fault
  | moveWithin target source =>
      (store.Descends target source ∨ store.Descends source target) ∧ fault = .overlap target source
  | alloc _ | ofBytes _ | setValue _ _ | reset _ | copyFrom _ _ _ | copyWithin _ _ => False

/--
An operation on live cells of a well-formed store fails just if it is misused, with the fault that says how, and then
leaves the whole store as it was, with every slot and the order of the free ones.
-/
theorem fails_just_on_misuse (stores : Nat → Store) {store : Store} (formed : store.WellFormed) (operation : Operation)
    (found : operation.finds stores store = true) :
    (∀ fault, operation.fault? stores store = some fault ↔ operation.Misuse store fault) ∧
      (operation.fault? stores store ≠ none → operation.outcome stores store = store) := by
  have sound := (Store.wellFormed_iff_sound store).mp formed
  cases operation with
  | alloc value => exact Store.failsJust_modifyGet (Store.plant value)
  | ofBytes bytes => exact Store.failsJust_modifyGet (Store.plantBytes bytes)
  | discard id => exact Store.failsJust_discard sound found
  | setValue id value => exact Store.failsJust_setValue sound found value
  | reset id => exact Store.failsJust_reset sound found
  | child id => exact Store.failsJust_child sound found
  | prev id => exact (Store.needsParent_prev sound id).failsJust sound found
  | next id => exact (Store.needsParent_next sound id).failsJust sound found
  | shiftBack id count => exact (Store.needsParent_shiftBack sound id count).failsJust sound found
  | shiftForward id count => exact (Store.needsParent_shiftForward sound id count).failsJust sound found
  | makeFirst id => exact (Store.needsParent_makeFirst sound id).failsJust sound found
  | insertBefore id value => exact (Store.needsParent_insertBefore sound id value).failsJust sound found
  | insertAfter id value => exact (Store.needsParent_insertAfter sound id value).failsJust sound found
  | deleteBefore id =>
      exact (Store.needsParent_deleteAlong sound id Store.strides_prev (Or.inr rfl)).failsJust sound found
  | deleteAfter id =>
      exact (Store.needsParent_deleteAlong sound id Store.strides_next (Or.inl rfl)).failsJust sound found
  | insertChild parent child =>
      obtain ⟨parentLive, childLive⟩ := Bool.and_eq_true_iff.mp found
      exact Store.failsJust_insertChild sound parentLive childLive
  | copyFrom target other source =>
      obtain ⟨targetLive, sourceLive⟩ := Bool.and_eq_true_iff.mp found
      exact Store.failsJust_copyFrom sound targetLive sourceLive
  | copyWithin target source =>
      obtain ⟨targetLive, sourceLive⟩ := Bool.and_eq_true_iff.mp found
      exact Store.failsJust_copyWithin sound targetLive sourceLive
  | moveWithin target source =>
      obtain ⟨targetLive, sourceLive⟩ := Bool.and_eq_true_iff.mp found
      exact Store.failsJust_moveWithin sound targetLive sourceLive

/-- A cell with one child, and two tops of negative value. -/
def barrenStore : Store :=
  Deed.performAll (fun _ => Store.empty) [⟨0, .alloc 3⟩, ⟨0, .child ⟨0⟩⟩, ⟨0, .alloc (-2)⟩, ⟨0, .alloc (-1)⟩] 0

/-- The operation is a misuse and changes nothing. -/
def Refuses (store : Store) (operation : Operation) (fault : Fault) : Prop :=
  operation.Misuse store fault ∧ operation.outcome (fun _ => store) store = store

/-- Into a negative cell goes neither a cell that has a parent nor the cell itself nor any other, for three reasons. -/
theorem fails_just_on_misuse_barrenStore :
    barrenStore.WellFormed ∧ Refuses barrenStore (insertChild ⟨2⟩ ⟨1⟩) (.attached ⟨1⟩) ∧
      Refuses barrenStore (insertChild ⟨2⟩ ⟨2⟩) (.overlap ⟨2⟩ ⟨2⟩) ∧
        Refuses barrenStore (insertChild ⟨2⟩ ⟨3⟩) (.barren ⟨2⟩ (-2)) := by
  have formed : barrenStore.WellFormed :=
    (Store.wellFormed_iff_sound _).mpr (Deed.sound_performAll (fun _ => Store.sound_empty) _ (by decide +kernel) 0)
  have refuses (operation : Operation) (fault : Fault)
      (found : operation.finds (fun _ => barrenStore) barrenStore = true)
      (failed : operation.fault? (fun _ => barrenStore) barrenStore = some fault) :
      Refuses barrenStore operation fault := by
    obtain ⟨blames, keeps⟩ := fails_just_on_misuse (fun _ => barrenStore) formed operation found
    exact ⟨(blames fault).mp failed, keeps (by rw [failed]; nofun)⟩
  exact ⟨formed, refuses _ _ (by decide +kernel) (by decide +kernel),
    refuses _ _ (by decide +kernel) (by decide +kernel), refuses _ _ (by decide +kernel) (by decide +kernel)⟩

end Operation

end RingTape
