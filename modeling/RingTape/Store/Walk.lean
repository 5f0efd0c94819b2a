import RingTape.Store.Basic

/-!
Walking the rings. A ring of value `n` has `n` members whether they exist in the store or not; a step to a
member that does not exist yet makes it, with value 0, at that end of the arc.
-/

namespace RingTape.Store

set_option autoImplicit false

/-- The anchor of a cell's ring. -/
def child (id : CellId) : StoreM CellId := do
  let cell ← cell id
  match cell.ring.forward with
  | anchor :: _ => return anchor.id
  | [] =>
      if cell.value ≤ 0 then
        throw (.barren id cell.value)
      let fresh ← takeSlot
      setRing id (Ring.single (Cell.leaf fresh 0))
      return fresh

/-- The sibling after a cell. -/
def next (id : CellId) : StoreM CellId := do
  let parent ← parentOf id
  match parent.ring.after? parent.value (parent.placeOf id) with
  | some sibling => return sibling.id
  | none =>
      let fresh ← takeSlot
      setRing parent.id ((parent.ring.pushForward (Cell.leaf fresh 0)).settle parent.value)
      return fresh

/-- The sibling before a cell. -/
def prev (id : CellId) : StoreM CellId := do
  let parent ← parentOf id
  match parent.ring.before? parent.value (parent.placeOf id) with
  | some sibling => return sibling.id
  | none =>
      let fresh ← takeSlot
      setRing parent.id ((parent.ring.pushBackward (Cell.leaf fresh 0)).settle parent.value)
      return fresh

/-- The size of the ring that a cell is a member of. -/
def ringSize (id : CellId) : StoreM Num := do
  let parent ← parentOf id
  if parent.value ≤ 0 then
    throw (.barren parent.id parent.value)
  return parent.value

/-- Take a step so many times. -/
def steps (step : CellId → StoreM CellId) : Nat → CellId → StoreM CellId
  | 0, id => return id
  | count + 1, id => do steps step count (← step id)

/-- Go forward `count` places, reduced modulo the size of the ring. -/
def shiftForward (id : CellId) (count : Num) : StoreM CellId := do
  let size ← ringSize id
  steps next (count.toInt % size.toInt).toNat id

/-- Go back `count` places, reduced modulo the size of the ring. -/
def shiftBack (id : CellId) (count : Num) : StoreM CellId := do
  let size ← ringSize id
  steps prev (count.toInt % size.toInt).toNat id

/-- Make a cell the anchor of its ring. -/
def makeFirst (id : CellId) : StoreM Unit := do
  let parent ← parentOf id
  setRing parent.id ((parent.ring.anchorAt (parent.placeOf id)).settle parent.value)

/-- The values of `count` consecutive members of a ring, starting with a given one. -/
def valuesFrom : Nat → CellId → StoreM (List Num)
  | 0, _ => return []
  | 1, id => return [(← cell id).value]
  | count + 2, id => do
      let first ← cell id
      let rest ← valuesFrom (count + 1) (← next id)
      return first.value :: rest

end RingTape.Store
