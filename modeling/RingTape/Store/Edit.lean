import RingTape.Store.Walk

/-!
Editing the rings. Adding or removing a member changes the value of the parent with it, so a ring that was
closed stays closed and one that was open stays open.
-/

namespace RingTape.Store

set_option autoImplicit false

/-- Replace the value and the ring of a cell, closing the ring if it is complete. -/
def install (id : CellId) (value : Num) (ring : Ring Cell) : StoreM Unit :=
  change id fun cell => { cell with value := value, ring := ring.settle value }

/-- Put a new cell in front of a cell. -/
def insertBefore (id : CellId) (value : Num) : StoreM CellId := do
  let _ ← prev id
  let fresh ← takeSlot
  let parent ← parentOf id
  install parent.id (parent.value + 1)
    (parent.ring.insertAt (parent.placeOf id) (Cell.leaf fresh value))
  return fresh

/-- Put a new cell behind a cell. -/
def insertAfter (id : CellId) (value : Num) : StoreM CellId := do
  insertBefore (← next id) value

/-- Take a cell out of its ring and discard it; `heir` becomes the anchor if the cell was. -/
def remove (id heir : CellId) : StoreM Unit := do
  let gone ← cell id
  let parent ← parentOf id
  install parent.id (parent.value - 1)
    (parent.ring.eraseAt (parent.placeOf id) (parent.placeOf heir))
  giveSlots (id :: gone.descendants)

/--
Remove the neighbour of a cell that `step` leads to, and return the neighbour that follows it. The only
member of a ring has no neighbour: then its parent becomes childless and is returned.
-/
def deleteAlong (step : CellId → StoreM CellId) (id : CellId) : StoreM CellId := do
  let parent ← parentOf id
  if parent.value = 1 then
    setValue parent.id 0
    return parent.id
  let gone ← step id
  let survivor ← step gone
  remove gone survivor
  return survivor

def deleteBefore (id : CellId) : StoreM CellId :=
  deleteAlong prev id

def deleteAfter (id : CellId) : StoreM CellId :=
  deleteAlong next id

/-- Make a whole tree the last member of a ring, just before the anchor. -/
def insertChild (parent child : CellId) : StoreM Unit := do
  let branch ← cell child
  if !(← isTop child) then
    throw (.attached child)
  if ← isAncestor child parent then
    throw (.overlap parent child)
  let host ← cell parent
  if host.value < 0 then
    throw (.barren parent host.value)
  if host.value ≠ 0 then
    let _ ← prev (← Store.child parent)
  let host ← cell parent
  uproot child
  install parent (host.value + 1) (host.ring.insertAt host.ring.anchor branch)

end RingTape.Store
