import RingTape.Proofs.Copy

/-!
Histories of stores. Whatever is done to any number of stores, one operation after the other, on any handles
and with any outcome, leaves each of them sound, as long as no member is added to a ring that already has the
greatest size there is.
-/

namespace RingTape

set_option autoImplicit false

namespace Store

/-- The store that a program leaves behind, whether it succeeds or fails. -/
def leave {α : Type} (program : StoreM α) (store : Store) : Store :=
  match program store with
  | .ok _ reached => reached
  | .error _ reached => reached

theorem leave_of_ok {α : Type} {program : StoreM α} {store reached : Store} {result : α}
    (ran : program store = .ok result reached) : leave program store = reached := by
  rw [leave, ran]

theorem leave_of_error {α : Type} {program : StoreM α} {store reached : Store} {fault : Fault}
    (ran : program store = .error fault reached) : leave program store = reached := by
  rw [leave, ran]

/-- The program fails and the store is as it was. -/
def Refused {α : Type} (program : StoreM α) (store : Store) : Prop :=
  ∃ fault, program store = .error fault store

theorem Refused.bind {α β : Type} {first : StoreM α} {store : Store} (refused : Refused first store)
    (rest : α → StoreM β) : Refused (first >>= rest) store := by
  obtain ⟨fault, ran⟩ := refused
  exact ⟨fault, run_bind_error ran⟩

theorem refused_parentOf {store : Store} {id : CellId} (none : store.parent? id = none) :
    Refused (parentOf id) store :=
  run_parentOf_of_none none

theorem refused_cell {store : Store} {id : CellId} (none : store.cell? id = none) : Refused (cell id) store :=
  ⟨_, run_cell_of_none none⟩

section Kept

variable {store : Store} (sound : store.Sound)

include sound

theorem sound_of_refused {α : Type} {program : StoreM α} (refused : Refused program store) :
    (leave program store).Sound := by
  obtain ⟨fault, ran⟩ := refused
  rw [leave_of_error ran]
  exact sound

/-- An operation on siblings is refused or finds its cell seated. -/
theorem sound_leave_of_seat {α : Type} {id : CellId} {program : StoreM α}
    (refused : store.parent? id = none → Refused program store)
    (seated : ∀ host member index, host ∈ store.nodes → host.Seats index member → member.id = id →
      store.parent? id = some host → (leave program store).Sound) : (leave program store).Sound := by
  cases found : store.parent? id with
  | none => exact sound_of_refused sound (refused found)
  | some host =>
      obtain ⟨inside, index, member, seat, same⟩ := seat_of_parent? sound found
      exact seated host member index inside seat same found

theorem sound_leave_of_cell {α : Type} {id : CellId} {program : StoreM α}
    (refused : store.cell? id = none → Refused program store)
    (present : ∀ node ∈ store.nodes, node.id = id → (leave program store).Sound) :
    (leave program store).Sound := by
  cases found : store.cell? id with
  | none => exact sound_of_refused sound (refused found)
  | some node =>
      have ⟨inside, same⟩ := mem_nodes_of_cell? found
      exact present node inside same

theorem sound_leave_walk {step : CellId → StoreM CellId} {distance : Int} (leads : Strides step distance)
    {id : CellId} (refused : store.parent? id = none → Refused (step id) store) :
    (leave (step id) store).Sound := by
  apply sound_leave_of_seat sound refused
  intro host member index inside seated same _
  obtain ⟨reached, ring, pool, ran, grown, _⟩ := leads store host member index sound inside seated
  rw [← same, leave_of_ok ran]
  exact sound.grow inside grown

theorem sound_leave_child (id : CellId) : (leave (child id) store).Sound := by
  have refused (none : store.cell? id = none) : Refused (child id) store := (refused_cell none).bind _
  apply sound_leave_of_cell sound refused
  intro host inside same
  rw [← same]
  rcases Nat.eq_zero_or_pos host.value.places with barren | positive
  · exact sound_of_refused sound
      ⟨_, run_child_barren sound.distinct inside (sound.rings host inside) barren⟩
  · obtain ⟨reached, ring, pool, ran, grown, _⟩ := run_child sound inside positive
    rw [leave_of_ok ran]
    exact sound.grow inside grown

theorem sound_leave_makeFirst (id : CellId) : (leave (makeFirst id) store).Sound := by
  have refused (none : store.parent? id = none) : Refused (makeFirst id) store :=
    (refused_parentOf none).bind _
  apply sound_leave_of_seat sound refused
  intro host member index inside seated same _
  obtain ⟨ring, ran, fits, members, _⟩ := run_makeFirst sound inside seated
  rw [← same, leave_of_ok ran]
  exact sound.rearrange inside fits members

theorem sound_leave_insertBefore (id : CellId) (value : Num)
    (room : ∀ host, store.parent? id = some host → host.value.toInt < Num.greatest) :
    (leave (insertBefore id value) store).Sound := by
  have refused (none : store.parent? id = none) : Refused (insertBefore id value) store :=
    ((refused_parentOf none).bind _).bind _
  apply sound_leave_of_seat sound refused
  intro host member index inside seated same found
  obtain ⟨fresh, wide, ring, between, after, ran, grown, spliced⟩ :=
    run_insertBefore sound inside seated value (room host found)
  rw [← same, leave_of_ok ran]
  exact sound.splice inside grown spliced

theorem sound_leave_insertAfter (id : CellId) (value : Num)
    (room : ∀ host, store.parent? id = some host → host.value.toInt < Num.greatest) :
    (leave (insertAfter id value) store).Sound := by
  have refused (none : store.parent? id = none) : Refused (insertAfter id value) store :=
    ((refused_parentOf none).bind _).bind _
  apply sound_leave_of_seat sound refused
  intro host member index inside seated same found
  obtain ⟨fresh, wide, ring, between, after, ran, grown, spliced⟩ :=
    run_insertAfter sound inside seated value (room host found)
  rw [← same, leave_of_ok ran]
  exact sound.splice inside grown spliced

theorem sound_leave_deleteAlong {step : CellId → StoreM CellId} {unit : Int} (leads : Strides step unit)
    (sign : unit = 1 ∨ unit = -1) (id : CellId) : (leave (deleteAlong step id) store).Sound := by
  have refused (none : store.parent? id = none) : Refused (deleteAlong step id) store :=
    (refused_parentOf none).bind _
  apply sound_leave_of_seat sound refused
  intro host member index inside seated same _
  rw [← same]
  by_cases last : host.value = 1
  · rw [leave_of_ok (run_deleteAlong_last sound inside seated last step)]
    exact sound.clear inside 0
  · obtain ⟨gone, survivor, wide, ring, between, ran, grown, _, _, severed⟩ :=
      run_deleteAlong sound inside seated last leads sign
    rw [leave_of_ok ran]
    exact sound.sever inside grown severed

theorem sound_leave_reset (id : CellId) : (leave (reset id) store).Sound := by
  have refused (none : store.cell? id = none) : Refused (reset id) store := (refused_cell none).bind _
  apply sound_leave_of_cell sound refused
  intro host inside same
  rw [← same, leave_of_ok (run_reset sound inside)]
  exact sound.clear inside host.value

theorem sound_leave_setValue (id : CellId) (value : Num) : (leave (setValue id value) store).Sound := by
  have refused (none : store.cell? id = none) : Refused (setValue id value) store :=
    ((refused_cell none).bind _).bind _
  apply sound_leave_of_cell sound refused
  intro host inside same
  rw [← same, leave_of_ok (run_setValue sound inside value)]
  exact sound.clear inside value

theorem sound_leave_discard (id : CellId) : (leave (discard id) store).Sound := by
  have refused (none : store.cell? id = none) : Refused (discard id) store := (refused_cell none).bind _
  apply sound_leave_of_cell sound refused
  intro host inside same
  rw [← same]
  cases found : store.parent? host.id with
  | none =>
      have isTop := (mem_trees_iff sound inside).mpr found
      rw [leave_of_ok (run_discard sound isTop)]
      exact sound_discard sound isTop
  | some parent => exact sound_of_refused sound ⟨_, run_discard_attached sound inside found⟩

theorem sound_leave_copyFrom (target : CellId) {other : Store} (otherSound : other.Sound) (source : CellId) :
    (leave (copyFrom target other source) store).Sound := by
  unfold copyFrom
  cases found : other.cell? source with
  | none => exact sound_of_refused sound ⟨_, rfl⟩
  | some image =>
      have ⟨imageInside, _⟩ := mem_nodes_of_cell? found
      have refused (none : store.cell? target = none) : Refused (overwrite target image) store :=
        ((refused_cell none).bind _).bind _
      apply sound_leave_of_cell sound refused
      intro host inside same
      rw [← same, leave_of_ok (run_overwrite sound inside image)]
      apply sound.overwrite inside
      intro node below
      exact otherSound.rings node (Cell.forestNodes_subset _ _ imageInside _ below)

theorem sound_leave_copyWithin (target source : CellId) : (leave (copyWithin target source) store).Sound := by
  unfold copyWithin
  by_cases different : target ≠ source
  · rw [if_pos different]
    exact sound_leave_copyFrom sound target sound source
  · rw [if_neg different]
    exact sound

omit sound in
theorem refused_isAncestor {ancestor id : CellId} (different : ancestor ≠ id) (none : store.cell? id = none) :
    Refused (isAncestor ancestor id) store := by
  rw [isAncestor, if_neg different]
  exact (refused_cell none).bind _

/-- A graft is refused, or it is one of a whole tree into a cell outside it that can have children. -/
theorem insertChild_cases (parent child : CellId) :
    Refused (insertChild parent child) store ∨
      ∃ host ∈ store.nodes, ∃ branch ∈ store.trees, host.id = parent ∧ branch.id = child ∧
        host.id ∉ branch.ids ∧ 0 ≤ host.value.toInt := by
  cases branchFound : store.cell? child with
  | none => exact Or.inl ((refused_cell branchFound).bind _)
  | some branch =>
      have ⟨branchInside, sameBranch⟩ := mem_nodes_of_cell? branchFound
      subst sameBranch
      cases above : store.parent? branch.id with
      | some owner => exact Or.inl ⟨_, run_insertChild_attached sound branchInside above parent⟩
      | none =>
          have isTop := (mem_trees_iff sound branchInside).mpr above
          cases hostFound : store.cell? parent with
          | none =>
              have different : branch.id ≠ parent := by
                intro same
                rw [← same, branchFound] at hostFound
                simp at hostFound
              obtain ⟨fault, failed⟩ := refused_isAncestor different hostFound
              left
              refine ⟨fault, ?_⟩
              rw [insertChild, run_bind_ok (run_cell_of_some branchFound),
                run_bind_ok (run_isTop sound branchInside), above]
              exact run_bind_error failed
          | some host =>
              have ⟨inside, sameHost⟩ := mem_nodes_of_cell? hostFound
              subst sameHost
              by_cases below : host.id ∈ branch.ids
              · exact Or.inl ⟨_, run_insertChild_overlap sound inside isTop below⟩
              · by_cases negative : host.value < 0
                · exact Or.inl ⟨_, run_insertChild_barren sound inside isTop below negative⟩
                · right
                  rw [Int64.lt_iff_toInt_lt, Int64.toInt_zero] at negative
                  exact ⟨host, inside, branch, isTop, rfl, rfl, below, by omega⟩

theorem sound_leave_insertChild (parent child : CellId)
    (room : ∀ host reached, store.cell? parent = some host →
      insertChild parent child store = .ok () reached → host.value.toInt < Num.greatest) :
    (leave (insertChild parent child) store).Sound := by
  rcases insertChild_cases sound parent child with
    refused | ⟨host, inside, branch, isTop, rfl, rfl, apart, nonnegative⟩
  · exact sound_of_refused sound refused
  · obtain ⟨wide, between, ran, grown, entered⟩ := run_insertChild sound inside isTop apart nonnegative
    have fits : (host.withRing host.value wide).Fits := grown.fits
    have roomy := room host _ (cell?_of_mem sound.distinct inside) ran
    rw [leave_of_ok ran]
    exact sound.graft inside isTop apart grown (grafted_graftedRing fits nonnegative roomy entered)

/-- A move is refused, or it is one between a cell and itself, or between cells on different branches. -/
theorem moveWithin_cases (target source : CellId) :
    Refused (moveWithin target source) store ∨ target = source ∨
      ∃ taker ∈ store.nodes, ∃ giver ∈ store.nodes, taker.id = target ∧ giver.id = source ∧
        giver.id ∉ taker.ids ∧ taker.id ∉ giver.ids := by
  by_cases same : target = source
  · exact Or.inr (Or.inl same)
  · cases giverFound : store.cell? source with
    | none =>
        left
        rw [moveWithin, if_pos same]
        exact (refused_isAncestor same giverFound).bind _
    | some giver =>
        obtain ⟨giverInside, sameGiver⟩ := mem_nodes_of_cell? giverFound
        subst sameGiver
        cases takerFound : store.cell? target with
        | none =>
            have absent : isAncestor target giver.id store = .ok false store := by
              rw [isAncestor, if_neg same]
              rw [run_bind_ok (run_cell_of_some giverFound)]
              rw [run_bind_ok (run_get store), takerFound]
              rfl
            obtain ⟨fault, failed⟩ := refused_isAncestor (fun equal => same equal.symm) takerFound
            left
            refine ⟨fault, ?_⟩
            rw [moveWithin, if_pos same, run_bind_ok absent]
            exact run_bind_error failed
        | some taker =>
            obtain ⟨takerInside, sameTaker⟩ := mem_nodes_of_cell? takerFound
            subst sameTaker
            by_cases aligned : giver.id ∈ taker.ids ∨ taker.id ∈ giver.ids
            · exact Or.inl ⟨_, run_moveWithin_overlap sound takerInside giverInside same aligned⟩
            · rw [not_or] at aligned
              exact Or.inr (Or.inr ⟨taker, takerInside, giver, giverInside, rfl, rfl, aligned.1, aligned.2⟩)

theorem sound_leave_moveWithin (target source : CellId) : (leave (moveWithin target source) store).Sound := by
  rcases moveWithin_cases sound target source with
    refused | same | ⟨taker, takerInside, giver, giverInside, rfl, rfl, below, above⟩
  · exact sound_of_refused sound refused
  · rw [leave_of_ok (run_moveWithin_self same store)]
    exact sound
  · rw [leave_of_ok (run_moveWithin sound takerInside giverInside below above)]
    exact sound_moveWithin sound takerInside giverInside below above

end Kept

end Store

/-- What can be done to a store. A copy may come from another store, which is named by its number. -/
inductive Operation where
  | alloc (value : Num)
  | ofBytes (bytes : List UInt8)
  | discard (id : CellId)
  | setValue (id : CellId) (value : Num)
  | reset (id : CellId)
  | child (id : CellId)
  | prev (id : CellId)
  | next (id : CellId)
  | shiftBack (id : CellId) (count : Num)
  | shiftForward (id : CellId) (count : Num)
  | makeFirst (id : CellId)
  | insertBefore (id : CellId) (value : Num)
  | insertAfter (id : CellId) (value : Num)
  | deleteBefore (id : CellId)
  | deleteAfter (id : CellId)
  | insertChild (parent child : CellId)
  | copyFrom (target : CellId) (other : Nat) (source : CellId)
  | copyWithin (target source : CellId)
  | moveWithin (target source : CellId)
deriving DecidableEq, Repr

namespace Operation

open Store (leave)

/-- What an operation leaves of the store it is done to. -/
def outcome (stores : Nat → Store) (store : Store) : Operation → Store
  | alloc value => leave (Store.alloc value) store
  | ofBytes bytes => leave (Store.ofBytes bytes) store
  | discard id => leave (Store.discard id) store
  | setValue id value => leave (Store.setValue id value) store
  | reset id => leave (Store.reset id) store
  | child id => leave (Store.child id) store
  | prev id => leave (Store.prev id) store
  | next id => leave (Store.next id) store
  | shiftBack id count => leave (Store.shiftBack id count) store
  | shiftForward id count => leave (Store.shiftForward id count) store
  | makeFirst id => leave (Store.makeFirst id) store
  | insertBefore id value => leave (Store.insertBefore id value) store
  | insertAfter id value => leave (Store.insertAfter id value) store
  | deleteBefore id => leave (Store.deleteBefore id) store
  | deleteAfter id => leave (Store.deleteAfter id) store
  | insertChild host branch => leave (Store.insertChild host branch) store
  | copyFrom target other source => leave (Store.copyFrom target (stores other) source) store
  | copyWithin target source => leave (Store.copyWithin target source) store
  | moveWithin target source => leave (Store.moveWithin target source) store

/-- Whether a cell that is about to get one more child can count it. -/
def countable (host : Option Cell) : Bool :=
  match host with
  | some host => host.value.toInt < Num.greatest
  | none => true

/--
Whether an operation adds no member to a ring of the greatest size. A graft that is refused adds none, and a
list of bytes in memory is never longer than that.
-/
def hasRoom (store : Store) : Operation → Bool
  | ofBytes bytes => bytes.length ≤ Num.greatest
  | insertBefore id _ | insertAfter id _ => countable (store.parent? id)
  | insertChild host branch =>
      match Store.insertChild host branch store with
      | .ok _ _ => countable (store.cell? host)
      | .error _ _ => true
  | _ => true

theorem room_of_countable {host : Option Cell} (roomy : countable host = true) :
    ∀ cell, host = some cell → cell.value.toInt < Num.greatest := by
  intro cell same
  rw [same] at roomy
  simpa [countable] using roomy

theorem sound_outcome {stores : Nat → Store} (others : ∀ number, (stores number).Sound) {store : Store}
    (sound : store.Sound) (operation : Operation) (roomy : operation.hasRoom store = true) :
    (operation.outcome stores store).Sound := by
  cases operation with
  | alloc value => exact Store.sound_plant sound value
  | ofBytes bytes =>
      have short : (bytes.length : Int) ≤ Num.greatest := by simpa [hasRoom] using roomy
      unfold Num.greatest at short
      exact Store.sound_plantBytes sound bytes (by omega)
  | discard id => exact Store.sound_leave_discard sound id
  | setValue id value => exact Store.sound_leave_setValue sound id value
  | reset id => exact Store.sound_leave_reset sound id
  | child id => exact Store.sound_leave_child sound id
  | prev id =>
      exact Store.sound_leave_walk sound Store.strides_prev fun none => (Store.refused_parentOf none).bind _
  | next id =>
      exact Store.sound_leave_walk sound Store.strides_next fun none => (Store.refused_parentOf none).bind _
  | shiftBack id count =>
      exact Store.sound_leave_walk sound (Store.strides_shiftBack count) fun none =>
        ((Store.refused_parentOf none).bind _).bind _
  | shiftForward id count =>
      exact Store.sound_leave_walk sound (Store.strides_shiftForward count) fun none =>
        ((Store.refused_parentOf none).bind _).bind _
  | makeFirst id => exact Store.sound_leave_makeFirst sound id
  | insertBefore id value => exact Store.sound_leave_insertBefore sound id value (room_of_countable roomy)
  | insertAfter id value => exact Store.sound_leave_insertAfter sound id value (room_of_countable roomy)
  | deleteBefore id => exact Store.sound_leave_deleteAlong sound Store.strides_prev (Or.inr rfl) id
  | deleteAfter id => exact Store.sound_leave_deleteAlong sound Store.strides_next (Or.inl rfl) id
  | insertChild parent child =>
      apply Store.sound_leave_insertChild sound
      intro host reached found ran
      simp only [hasRoom, ran] at roomy
      exact room_of_countable roomy host found
  | copyFrom target other source => exact Store.sound_leave_copyFrom sound target (others other) source
  | copyWithin target source => exact Store.sound_leave_copyWithin sound target source
  | moveWithin target source => exact Store.sound_leave_moveWithin sound target source

end Operation

/-- One operation, done to the store with the given number. -/
structure Deed where
  number : Nat
  operation : Operation

namespace Deed

def perform (stores : Nat → Store) (deed : Deed) : Nat → Store :=
  Function.update stores deed.number (deed.operation.outcome stores (stores deed.number))

def performAll (stores : Nat → Store) (deeds : List Deed) : Nat → Store :=
  deeds.foldl perform stores

/-- Whether none of a list of deeds adds a member to a ring of the greatest size. -/
def haveRoom (stores : Nat → Store) : List Deed → Bool
  | [] => true
  | deed :: rest => deed.operation.hasRoom (stores deed.number) && haveRoom (deed.perform stores) rest

theorem sound_perform {stores : Nat → Store} (sound : ∀ number, (stores number).Sound) (deed : Deed)
    (roomy : deed.operation.hasRoom (stores deed.number) = true) :
    ∀ number, (deed.perform stores number).Sound := by
  intro number
  unfold perform
  by_cases same : number = deed.number
  · subst same
    rw [Function.update_self]
    exact Operation.sound_outcome sound (sound deed.number) deed.operation roomy
  · rw [Function.update_of_ne same]
    exact sound number

theorem sound_performAll {stores : Nat → Store} (sound : ∀ number, (stores number).Sound) (deeds : List Deed)
    (roomy : haveRoom stores deeds = true) : ∀ number, (performAll stores deeds number).Sound := by
  induction deeds generalizing stores with
  | nil => exact sound
  | cons deed rest induction =>
      rw [haveRoom, Bool.and_eq_true] at roomy
      exact induction (sound_perform sound deed roomy.1) roomy.2

end Deed

end RingTape
