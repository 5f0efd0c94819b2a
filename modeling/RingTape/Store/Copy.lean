import RingTape.Store.Edit

/-!
Copying and moving whole subtrees. A copy has the shape of what it copies: the same values, the same
materialised arcs, the same anchors. The children of a cell get their slots before any deeper cell, and
the deeper cells get theirs from the last child to the first.
-/

namespace RingTape

set_option autoImplicit false

namespace Cell

mutual

/-- A copy of a cell in the given slot, with new slots for everything below it. -/
def cloneAs (id : CellId) : Cell → Pool → Cell × Pool
  | ⟨_, value, ⟨forward, backward⟩⟩, pool =>
      let (near, pool) := pool.takeMany forward.length
      let (far, pool) := pool.takeMany backward.length
      let (backward, pool) := cloneAll far backward pool
      let (forward, pool) := cloneAll near forward pool
      (⟨id, value, ⟨forward, backward⟩⟩, pool)

def cloneAll : List CellId → List Cell → Pool → List Cell × Pool
  | id :: ids, cell :: rest, pool =>
      let (rest, pool) := cloneAll ids rest pool
      let (cell, pool) := cell.cloneAs id pool
      (cell :: rest, pool)
  | _, _, pool => ([], pool)

end

end Cell

namespace Store

/-- Overwrite a cell with a copy of `image`; its own parent and siblings stay. -/
def overwrite (id : CellId) (image : Cell) : StoreM Unit := do
  reset id
  let copy ← modifyGet fun store =>
    let (copy, pool) := image.cloneAs id store.pool
    (copy, { store with pool := pool })
  change id fun _ => copy

/-- Overwrite a cell with a copy of a cell of another store. -/
def copyFrom (target : CellId) (other : Store) (source : CellId) : StoreM Unit := do
  match other.cell? source with
  | some image => overwrite target image
  | none => throw (.stale source)

/-- Overwrite a cell with a copy of a cell of the same store, as it was before. -/
def copyWithin (target source : CellId) : StoreM Unit := do
  if target ≠ source then
    copyFrom target (← get) source

/-- Hand the value and the children of `source` over to `target`; `source` keeps its value. -/
def moveWithin (target source : CellId) : StoreM Unit := do
  if target ≠ source then
    if ← isAncestor target source then
      throw (.overlap target source)
    if ← isAncestor source target then
      throw (.overlap target source)
    reset target
    let moved ← cell source
    setRing source Ring.empty
    change target fun cell => { cell with value := moved.value, ring := moved.ring }

end Store

end RingTape
