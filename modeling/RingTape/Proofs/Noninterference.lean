import RingTape.Proofs.Transplant

/-!
The frame law of stores. An operation touches few cells, all near its subject, and frees others; all fields of every
other cell stay, and so does the shape of every cell with no touched cell at or below it. Hence two cells neither of
which contains the other are independent: whatever is done to one of them, however often, does not show in the other.
This is so of a copy and its original.
-/

namespace RingTape

set_option autoImplicit false

namespace Operation

open Store (Spares Assigns)

/-- The cells that an operation may change. -/
def touches (store : Store) : Operation → List CellId
  | alloc _ | ofBytes _ | discard _ => []
  | setValue id _ | reset id => [id]
  | child id => store.family id
  | prev id | next id | shiftBack id _ | shiftForward id _ => store.kindred id
  | insertBefore id _ | insertAfter id _ | deleteBefore id | deleteAfter id => store.kindred id
  | makeFirst id => (store.parentLink id).toList
  | insertChild host branch => branch :: store.family host
  | copyFrom target _ _ | copyWithin target _ => [target]
  | moveWithin target source => target :: store.family source

/-- The slots that an operation gives back before it takes others, maybe the same ones again. -/
def recycles (stores : Nat → Store) (store : Store) : Operation → List CellId
  | copyFrom target other source => if (stores other).contains source then store.below target else []
  | copyWithin target source => if target ≠ source ∧ store.contains source then store.below target else []
  | _ => []

/-- The cells that are no longer there, or whose slot may be that of another one by now. -/
def frees (stores : Nat → Store) (store : Store) (operation : Operation) : List CellId :=
  store.ids.filter fun id =>
    !(operation.outcome stores store).contains id || id ∈ operation.recycles stores store

/-- The cell that gets a new value or new children and stays where it is. -/
def assigned : Operation → Option CellId
  | setValue id _ | reset id => some id
  | copyFrom target _ _ | copyWithin target _ => some target
  | _ => none

section Step

variable {stores : Nat → Store} {store : Store} (sound : store.Sound)

theorem mem_frees_of_recycles {operation : Operation} {id : CellId} (live : id ∈ store.ids)
    (recycled : id ∈ operation.recycles stores store) : id ∈ operation.frees stores store := by
  simp [frees, live, recycled]

theorem mem_frees_of_absent (operation : Operation) {id : CellId} (live : id ∈ store.ids)
    (absent : id ∉ (operation.outcome stores store).ids) : id ∈ operation.frees stores store := by
  have gone : (operation.outcome stores store).contains id = false := by
    rw [← Bool.not_eq_true, Store.contains_iff]
    exact absent
  simp [frees, live, gone]

include sound

theorem assigns_outcome (operation : Operation) {target : CellId} (assigned : operation.assigned = some target) :
    Assigns store (operation.outcome stores store) target (fun id => id ∈ operation.frees stores store) := by
  cases operation with
  | setValue id value =>
      obtain rfl := Option.some.inj assigned
      exact (Store.assigns_setValue sound id value).mono fun _ => mem_frees_of_absent (.setValue id value)
  | reset id =>
      obtain rfl := Option.some.inj assigned
      exact (Store.assigns_reset sound id).mono fun _ => mem_frees_of_absent (.reset id)
  | copyFrom target other source =>
      obtain rfl := Option.some.inj assigned
      apply (Store.assigns_copyFrom sound target (stores other) source).mono
      rintro id live ⟨present, under⟩
      apply mem_frees_of_recycles live
      rw [recycles, if_pos present]
      exact under
  | copyWithin target source =>
      obtain rfl := Option.some.inj assigned
      apply (Store.assigns_copyWithin sound target source).mono
      rintro id live ⟨copied, under⟩
      apply mem_frees_of_recycles live
      rw [recycles, if_pos copied]
      exact under
  | _ => cases assigned

theorem spares_outcome (operation : Operation) :
    Spares store (operation.outcome stores store) (operation.touches store)
      (fun id => id ∈ operation.frees stores store) := by
  cases operation with
  | alloc value => exact Store.spares_planted sound rfl (Store.sound_plant sound value).slots _
  | ofBytes bytes => exact Store.spares_planted sound rfl (Store.slots_plantBytes sound bytes) _
  | discard id => exact (Store.spares_discard sound id).mono fun _ => mem_frees_of_absent (.discard id)
  | setValue id value => exact (assigns_outcome sound (.setValue id value) rfl).spares
  | reset id => exact (assigns_outcome sound (.reset id) rfl).spares
  | child id => exact Store.spares_child sound id _
  | prev id => exact Store.spares_walk sound Store.strides_prev id (fun none => (Store.refused_parentOf none).bind _) _
  | next id => exact Store.spares_walk sound Store.strides_next id (fun none => (Store.refused_parentOf none).bind _) _
  | shiftBack id count =>
      exact Store.spares_walk sound (Store.strides_shiftBack count) id
        (fun none => ((Store.refused_parentOf none).bind _).bind _) _
  | shiftForward id count =>
      exact Store.spares_walk sound (Store.strides_shiftForward count) id
        (fun none => ((Store.refused_parentOf none).bind _).bind _) _
  | makeFirst id => exact Store.spares_makeFirst sound id _
  | insertBefore id value => exact Store.spares_insertBefore sound id value _
  | insertAfter id value => exact Store.spares_insertAfter sound id value _
  | deleteBefore id =>
      exact (Store.spares_deleteAlong sound Store.strides_prev (Or.inr rfl) id).mono fun _ =>
        mem_frees_of_absent (.deleteBefore id)
  | deleteAfter id =>
      exact (Store.spares_deleteAlong sound Store.strides_next (Or.inl rfl) id).mono fun _ =>
        mem_frees_of_absent (.deleteAfter id)
  | insertChild parent child => exact Store.spares_insertChild sound parent child _
  | copyFrom target other source => exact (assigns_outcome sound (.copyFrom target other source) rfl).spares
  | copyWithin target source => exact (assigns_outcome sound (.copyWithin target source) rfl).spares
  | moveWithin target source =>
      exact (Store.spares_moveWithin sound target source).mono fun _ => mem_frees_of_absent (.moveWithin target source)

omit sound in
/-- What a copy frees is below its target. -/
theorem mem_below_of_frees {operation : Operation} {target : CellId} {copied : Prop} [Decidable copied]
    (recycled : operation.recycles stores store = if copied then store.below target else [])
    (assigns : Assigns store (operation.outcome stores store) target fun id => copied ∧ id ∈ store.below target)
    {id : CellId} (freed : id ∈ operation.frees stores store) : id ∈ store.below target := by
  obtain ⟨live, gone⟩ := List.mem_filter.mp freed
  rw [Bool.or_eq_true, Bool.not_eq_true', decide_eq_true_eq, recycled] at gone
  rcases gone with absent | under
  · rw [← Bool.not_eq_true, Store.contains_iff] at absent
    exact (assigns.freed live absent).2
  · split_ifs at under with done
    · exact under
    · exact absurd under List.not_mem_nil

end Step

end Operation

/-- A cell of one of several stores. -/
structure Place where
  number : Nat
  id : CellId
deriving DecidableEq, Repr

namespace Place

def isLive (stores : Nat → Store) (place : Place) : Bool :=
  (stores place.number).contains place.id

def snapshot? (stores : Nat → Store) (place : Place) : Option Snapshot :=
  (stores place.number).snapshot? place.id

/-- Whether another place is the same one or below it. -/
def holds (stores : Nat → Store) (place other : Place) : Bool :=
  other.number = place.number ∧ other.id ∈ (stores place.number).branch place.id

/-- Whether neither of two places contains the other. -/
def apart (stores : Nat → Store) (place other : Place) : Bool :=
  !place.holds stores other && !other.holds stores place

end Place

namespace Deed

/-- Whether all that a deed touches and frees is at a place or below it. -/
def within (stores : Nat → Store) (place : Place) (deed : Deed) : Bool :=
  let store := stores deed.number
  (deed.operation.touches store ++ deed.operation.frees stores store).all fun id =>
    place.holds stores ⟨deed.number, id⟩

def allWithin (place : Place) (stores : Nat → Store) : List Deed → Bool
  | [] => true
  | deed :: rest => deed.within stores place && allWithin place (deed.perform stores) rest

/-- Every deed of a list is done to a store that is well-formed at that time. -/
def AllFormed (stores : Nat → Store) : List Deed → Prop
  | [] => True
  | deed :: rest => (stores deed.number).WellFormed ∧ AllFormed (deed.perform stores) rest

/-- The place that a deed copies to and the one that it copies from. -/
def copies : Deed → Option (Place × Place)
  | ⟨number, .copyFrom target other source⟩ => some (⟨number, target⟩, ⟨other, source⟩)
  | ⟨number, .copyWithin target source⟩ => some (⟨number, target⟩, ⟨number, source⟩)
  | _ => none

theorem perform_self (stores : Nat → Store) (deed : Deed) :
    deed.perform stores deed.number = deed.operation.outcome stores (stores deed.number) := by
  rw [perform, Function.update_self]

theorem perform_of_ne (stores : Nat → Store) {deed : Deed} {number : Nat} (different : number ≠ deed.number) :
    deed.perform stores number = stores number := by
  rw [perform, Function.update_of_ne different]

section Independent

variable {stores : Nat → Store} {deed : Deed} (sound : (stores deed.number).Sound) {place other : Place}
  (within : deed.within stores place = true) (apart : place.apart stores other = true)
  (live : other.isLive stores = true)

theorem not_holds_of_apart (apart : place.apart stores other = true) :
    ¬ place.holds stores other ∧ ¬ other.holds stores place := by
  simpa [Place.apart] using apart

theorem holds_of_within (within : deed.within stores place = true) {id : CellId}
    (changed : id ∈ deed.operation.touches (stores deed.number) ∨
      id ∈ deed.operation.frees stores (stores deed.number)) :
    deed.number = place.number ∧ id ∈ (stores place.number).branch place.id := by
  have all := List.all_eq_true.mp within id (List.mem_append.mpr changed)
  simpa [Place.holds] using all

include sound within apart live

/-- A deed at one place does not reach another one. -/
theorem cell?_perform :
    (deed.perform stores other.number).cell? other.id = (stores other.number).cell? other.id := by
  obtain ⟨outside, above⟩ := not_holds_of_apart apart
  by_cases here : other.number = deed.number
  · have present : other.id ∈ (stores other.number).ids := (Store.contains_iff _).mp live
    rw [here] at present ⊢
    rw [perform_self]
    apply (Operation.spares_outcome sound deed.operation).cells other.id present
    · intro freed
      obtain ⟨same, under⟩ := holds_of_within within (Or.inr freed)
      exact outside (by simp [Place.holds, here, same, under])
    · intro id touched under
      obtain ⟨same, reached⟩ := holds_of_within within (Or.inl touched)
      rw [← same] at reached
      -- A cell below both places would put one of them below the other.
      rcases Store.branches_nested sound.distinct reached under with below | contains
      · exact above (by simp [Place.holds, here, ← same, below])
      · exact outside (by simp [Place.holds, here, ← same, contains])
  · rw [perform_of_ne stores here]

theorem isLive_perform : other.isLive (deed.perform stores) = true := by
  rw [Place.isLive, Store.contains, cell?_perform sound within apart live]
  exact live

/-- What is done at a place brings nothing from elsewhere under it. -/
theorem apart_perform : place.apart (deed.perform stores) other = true := by
  obtain ⟨outside, above⟩ := not_holds_of_apart apart
  have kept : (deed.perform stores other.number).branch other.id = (stores other.number).branch other.id := by
    rw [Store.branch, Store.branch, cell?_perform sound within apart live]
  have stillAbove : ¬ other.holds (deed.perform stores) place := by
    simpa [Place.holds, kept] using above
  have stillOutside : ¬ place.holds (deed.perform stores) other := by
    intro inside
    obtain ⟨same, under⟩ : other.number = place.number ∧
        other.id ∈ (deed.perform stores place.number).branch place.id := by simpa [Place.holds] using inside
    apply outside
    by_cases here : place.number = deed.number
    · have present : other.id ∈ (stores deed.number).ids := by
        rw [← here, ← same]
        exact (Store.contains_iff _).mp live
      rw [here, perform_self] at under
      have before := (Operation.spares_outcome sound deed.operation).mem_branch sound.distinct
        (fun id changed => here ▸ (holds_of_within within changed).2) other.id under present
      simp [Place.holds, same, here, before]
    · rw [perform_of_ne stores here] at under
      simp [Place.holds, same, under]
  simp [Place.apart, stillAbove, stillOutside]

end Independent

/-- Whatever is done at one place, one deed after the other, another place stays as it is. -/
theorem cell?_performAll {place other : Place} (deeds : List Deed) {stores : Nat → Store}
    (formed : AllFormed stores deeds) (within : allWithin place stores deeds = true)
    (apart : place.apart stores other = true) (live : other.isLive stores = true) :
    (performAll stores deeds other.number).cell? other.id = (stores other.number).cell? other.id := by
  induction deeds generalizing stores with
  | nil => rfl
  | cons deed rest induction =>
      rw [allWithin, Bool.and_eq_true] at within
      have sound := (Store.wellFormed_iff_sound _).mp formed.1
      have further := induction formed.2 within.2 (apart_perform sound within.1 apart live)
        (isLive_perform sound within.1 apart live)
      rw [performAll, List.foldl_cons, ← performAll, further]
      exact cell?_perform sound within.1 apart live

theorem apart_symm (stores : Nat → Store) (place other : Place) :
    place.apart stores other = other.apart stores place := by
  simp [Place.apart, Bool.and_comm]

theorem within_of_assigned {stores : Nat → Store} {number : Nat} {operation : Operation} {target : CellId}
    (touched : operation.touches (stores number) = [target])
    (live : (⟨number, target⟩ : Place).isLive stores = true)
    (freed : ∀ id ∈ operation.frees stores (stores number), id ∈ (stores number).below target) :
    (⟨number, operation⟩ : Deed).within stores ⟨number, target⟩ = true := by
  apply List.all_eq_true.mpr
  intro id changed
  have present : target ∈ (stores number).ids := (Store.contains_iff _).mp live
  have under : id ∈ (stores number).branch target := by
    rcases List.mem_append.mp changed with isTouched | isFreed
    · rw [touched, List.mem_singleton] at isTouched
      rw [isTouched]
      exact Store.mem_branch_self present
    · exact Store.mem_branch_of_below (freed id isFreed)
  simp [Place.holds, under]

/-- A copy is made at the place that it is made to. -/
theorem within_of_copies {stores : Nat → Store} (sound : ∀ number, (stores number).Sound) {deed : Deed}
    {target source : Place} (copies : deed.copies = some (target, source)) (live : target.isLive stores = true) :
    deed.number = target.number ∧ deed.operation.assigned = some target.id ∧ deed.within stores target = true := by
  obtain ⟨number, operation⟩ := deed
  cases operation with
  | copyFrom id other image =>
      obtain ⟨rfl, rfl⟩ := Prod.mk.inj (Option.some.inj copies)
      refine ⟨rfl, rfl, within_of_assigned rfl live ?_⟩
      intro below freed
      exact Operation.mem_below_of_frees rfl (Store.assigns_copyFrom (sound number) id (stores other) image) freed
  | copyWithin id image =>
      obtain ⟨rfl, rfl⟩ := Prod.mk.inj (Option.some.inj copies)
      refine ⟨rfl, rfl, within_of_assigned rfl live ?_⟩
      intro below freed
      exact Operation.mem_below_of_frees rfl (Store.assigns_copyWithin (sound number) id image) freed
  | _ => cases copies

theorem isLive_of_assigned {stores : Nat → Store} {deed : Deed} (sound : (stores deed.number).Sound) {target : Place}
    (here : deed.number = target.number) (assigned : deed.operation.assigned = some target.id)
    (live : target.isLive stores = true) : target.isLive (deed.perform stores) = true := by
  rw [Place.isLive, ← here, Store.contains_iff] at live ⊢
  rw [perform_self]
  exact (Operation.assigns_outcome sound deed.operation assigned).live live

theorem allFormed_of_haveRoom {stores : Nat → Store} (sound : ∀ number, (stores number).Sound) {deeds : List Deed}
    (roomy : haveRoom stores deeds = true) : AllFormed stores deeds := by
  induction deeds generalizing stores with
  | nil => trivial
  | cons deed rest induction =>
      rw [haveRoom, Bool.and_eq_true] at roomy
      exact ⟨(Store.wellFormed_iff_sound _).mpr (sound deed.number), induction (sound_perform sound deed roomy.1) roomy.2⟩

/--
The frame law. An operation on a well-formed store leaves all six fields of every cell that it neither touches nor
frees, the ties of a cell to which it assigns, and the shape of every cell with no touched cell at or below it. After
a copy between cells neither of which contains the other, whatever is done within one of the two does not show in
the other, for as long as the stores are well-formed.
-/
theorem operations_are_local (stores : Nat → Store) (formed : ∀ number, (stores number).WellFormed) :
    (∀ (number : Nat) (operation : Operation),
      let before := stores number
      let after := operation.outcome stores before
      (∀ id, before.contains id = true → id ∉ operation.frees stores before → id ∉ operation.touches before →
        after.fields? id = before.fields? id) ∧
      (∀ target, operation.assigned = some target → after.kin target = before.kin target) ∧
      (∀ id, before.contains id = true → id ∉ operation.frees stores before →
        (∀ touched ∈ operation.touches before, touched ∉ before.branch id) →
          after.snapshot? id = before.snapshot? id)) ∧
    ∀ (deed : Deed) (target source : Place), deed.copies = some (target, source) → target.isLive stores = true →
      source.isLive stores = true → target.apart stores source = true →
      ∀ later, AllFormed (deed.perform stores) later →
        (allWithin target (deed.perform stores) later = true →
          source.snapshot? (performAll (deed.perform stores) later) = source.snapshot? stores) ∧
        (allWithin source (deed.perform stores) later = true →
          target.snapshot? (performAll (deed.perform stores) later) = target.snapshot? (deed.perform stores)) := by
  have sound (number : Nat) : (stores number).Sound := (Store.wellFormed_iff_sound _).mp (formed number)
  constructor
  · intro number operation before after
    have spares : Store.Spares before after _ _ := Operation.spares_outcome (sound number) operation
    refine ⟨?_, ?_, ?_⟩
    · intro id live kept untouched
      exact spares.fields id ((Store.contains_iff id).mp live) kept untouched
    · intro target assigned
      exact (Operation.assigns_outcome (sound number) operation assigned).kin
    · intro id live kept above
      rw [Store.snapshot?, spares.cells id ((Store.contains_iff id).mp live) kept above, Store.snapshot?]
  · intro deed target source copies targetLive sourceLive apart later laterFormed
    obtain ⟨here, assigned, within⟩ := within_of_copies sound copies targetLive
    have own := sound deed.number
    have stillApart := apart_perform own within apart sourceLive
    constructor
    · intro confined
      have stays := cell?_performAll later laterFormed confined stillApart
        (isLive_perform own within apart sourceLive)
      rw [Place.snapshot?, Store.snapshot?, stays, cell?_perform own within apart sourceLive]
      rfl
    · intro confined
      rw [apart_symm] at stillApart
      have stays := cell?_performAll later laterFormed confined stillApart
        (isLive_of_assigned own here assigned targetLive)
      rw [Place.snapshot?, Store.snapshot?, stays]
      rfl

/-- A ring with two of four members in one store, and a short text in another one. -/
def sampleStores : Nat → Store :=
  performAll (fun _ => Store.empty) [⟨0, .alloc 4⟩, ⟨0, .child ⟨0⟩⟩, ⟨0, .prev ⟨1⟩⟩, ⟨1, .ofBytes [104, 105]⟩]

/-- The ring is copied over a letter, and the copy is walked, changed and cut. -/
theorem operations_are_local_sampleStores :
    let target : Place := ⟨1, ⟨1⟩⟩
    let source : Place := ⟨0, ⟨0⟩⟩
    let copied := perform sampleStores ⟨1, .copyFrom ⟨1⟩ 0 ⟨0⟩⟩
    let later : List Deed := [⟨1, .next ⟨3⟩⟩, ⟨1, .setValue ⟨4⟩ 9⟩, ⟨1, .deleteAfter ⟨3⟩⟩]
    (∀ number, (sampleStores number).WellFormed) ∧ AllFormed copied later ∧ allWithin target copied later = true ∧
      source.snapshot? (performAll copied later) = source.snapshot? sampleStores ∧
      (copied 1).value? ⟨1⟩ = some 4 ∧ (performAll copied later 1).value? ⟨1⟩ = some 3 ∧
      (Operation.outcome sampleStores (sampleStores 0) (.setValue ⟨1⟩ 7)).fields? ⟨2⟩ =
        (sampleStores 0).fields? ⟨2⟩ := by
  intro target source copied later
  have empty (number : Nat) : ((fun _ => Store.empty) number : Store).Sound := Store.sound_empty
  have sound : ∀ number, (sampleStores number).Sound := sound_performAll empty _ (by decide +kernel)
  have formed (number : Nat) : (sampleStores number).WellFormed := (Store.wellFormed_iff_sound _).mpr (sound number)
  have laterFormed : AllFormed copied later :=
    allFormed_of_haveRoom (sound_perform sound _ rfl) (by decide +kernel)
  have confined : allWithin target copied later = true := by decide +kernel
  have law := operations_are_local sampleStores formed
  refine ⟨formed, laterFormed, confined, ?_, by decide +kernel, by decide +kernel, ?_⟩
  · exact (law.2 ⟨1, .copyFrom ⟨1⟩ 0 ⟨0⟩⟩ target source rfl (by decide +kernel) (by decide +kernel)
      (by decide +kernel) later laterFormed).1 confined
  · exact (law.1 0 (.setValue ⟨1⟩ 7)).1 ⟨2⟩ (by decide +kernel) (by decide +kernel) (by decide +kernel)

end Deed

end RingTape
