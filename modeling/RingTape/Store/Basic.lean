import RingTape.Cell

/-!
The store: a forest of cells in numbered slots. A slot that is given back is the next one to be handed out,
so the numbers of new cells follow from the history of the store alone.

Operations are `StoreM` programs. One that fails leaves the store as far as it had got, so that "a failed
operation changes nothing" is a statement about each operation and not part of their type.
-/

namespace RingTape

set_option autoImplicit false

/-- Which slots are free: those given back, latest first, and then every number from `slots` on. -/
structure Pool where
  free : List CellId
  slots : Nat
deriving DecidableEq, Repr

namespace Pool

def empty : Pool := ⟨[], 0⟩

/-- Hand out one slot. -/
def take (pool : Pool) : CellId × Pool :=
  match pool.free with
  | id :: free => (id, { pool with free := free })
  | [] => (⟨pool.slots⟩, { pool with slots := pool.slots + 1 })

/-- Hand out slots one after the other. -/
def takeMany : Nat → Pool → List CellId × Pool
  | 0, pool => ([], pool)
  | count + 1, pool =>
      let (id, pool) := pool.take
      let (ids, pool) := takeMany count pool
      (id :: ids, pool)

/-- Give slots back; the first of the list will be handed out first. -/
def give (ids : List CellId) (pool : Pool) : Pool :=
  { pool with free := ids ++ pool.free }

/-- The number of slots in use. -/
def used (pool : Pool) : Nat :=
  pool.slots - pool.free.length

end Pool

structure Store where
  trees : List Cell
  pool : Pool

/-- Why an operation on cells is refused. -/
inductive Fault where
  /-- No cell occupies the slot. -/
  | stale (cell : CellId)
  /-- The cell is at the top of a tree and has no siblings. -/
  | detached (cell : CellId)
  /-- The cell's value is not positive, so it has no ring of children. -/
  | barren (cell : CellId) (value : Num)
  /-- The cell has a parent already. -/
  | attached (cell : CellId)
  /-- One of the two cells is the other or lies below it. -/
  | overlap (target source : CellId)
deriving DecidableEq, Repr

def Fault.message : Fault → String
  | .stale cell => s!"stale cell handle {cell.text}"
  | .detached cell => s!"cell {cell.text} is a top-level cell and has no siblings"
  | .barren cell value => s!"cell {cell.text} has value {value.text} and therefore no children"
  | .attached cell => s!"cell {cell.text} already belongs to a tree"
  | .overlap target source => s!"cells {target.text} and {source.text} lie on the same branch"

/-- A program on the store that may fail and then keeps what it had done. -/
abbrev StoreM := EStateM Fault Store

namespace Store

def empty : Store := ⟨[], Pool.empty⟩

/-- Every cell of the store, each before its children. -/
def nodes (store : Store) : List Cell :=
  Cell.forestNodes store.trees

def cell? (store : Store) (id : CellId) : Option Cell :=
  Cell.forestFind? (fun cell => cell.id = id) store.trees

def parent? (store : Store) (id : CellId) : Option Cell :=
  Cell.forestFind? (fun cell => cell.owns id) store.trees

/-- Whether a cell occupies the slot. -/
def contains (store : Store) (id : CellId) : Bool :=
  (store.cell? id).isSome

/-- The number of cells. -/
def live (store : Store) : Nat :=
  store.pool.used

def summary (store : Store) : String :=
  "Memory\x7blive: " ++ decimalText store.live ++ ", slots: " ++ decimalText store.pool.slots ++ "\x7d"

/-- A new cell at the top of a tree of its own. -/
def plant (value : Num) (store : Store) : CellId × Store :=
  let (id, pool) := store.pool.take
  (id, ⟨Cell.leaf id value :: store.trees, pool⟩)

/-- A new tree whose top has one child for each byte. -/
def plantBytes (bytes : List UInt8) (store : Store) : CellId × Store :=
  let (id, pool) := store.pool.take
  let (ids, pool) := pool.takeMany bytes.length
  let children := List.zipWith (fun child byte => Cell.leaf child (Num.ofByte byte)) ids bytes
  (id, ⟨⟨id, Int64.ofNat bytes.length, ⟨children, []⟩⟩ :: store.trees, pool⟩)

def alloc (value : Num) : StoreM CellId :=
  modifyGet (plant value)

def ofBytes (bytes : List UInt8) : StoreM CellId :=
  modifyGet (plantBytes bytes)

/-- The cell in a slot that must be occupied. -/
def cell (id : CellId) : StoreM Cell := do
  match (← get).cell? id with
  | some cell => return cell
  | none => throw (.stale id)

/-- The parent of a cell that must have one. -/
def parentOf (id : CellId) : StoreM Cell := do
  match (← get).parent? id with
  | some parent => return parent
  | none =>
      let _ ← cell id
      throw (.detached id)

def isTop (id : CellId) : StoreM Bool := do
  let _ ← cell id
  return ((← get).parent? id).isNone

/-- Whether `ancestor` is the cell or lies above it. -/
def isAncestor (ancestor id : CellId) : StoreM Bool := do
  if ancestor = id then
    return true
  let _ ← cell id
  match (← get).cell? ancestor with
  | some above => return (above.find? fun below => below.id = id).isSome
  | none => return false

/-- Hand out a slot for a new cell. -/
def takeSlot : StoreM CellId :=
  modifyGet fun store =>
    let (id, pool) := store.pool.take
    (id, { store with pool := pool })

def giveSlots (ids : List CellId) : StoreM Unit :=
  modify fun store => { store with pool := store.pool.give ids }

/-- Change one cell in place. -/
def change (id : CellId) (edit : Cell → Cell) : StoreM Unit :=
  modify fun store => { store with trees := Cell.forestAmend id edit store.trees }

def setRing (id : CellId) (ring : Ring Cell) : StoreM Unit :=
  change id fun cell => { cell with ring := ring }

/-- Discard everything below a cell. -/
def reset (id : CellId) : StoreM Unit := do
  let cell ← cell id
  giveSlots cell.descendants
  setRing id Ring.empty

/-- Discard everything below a cell and give it a new value. -/
def setValue (id : CellId) (value : Num) : StoreM Unit := do
  reset id
  change id fun cell => { cell with value := value }

/-- Take a tree out of the forest, keeping its slots. -/
def uproot (id : CellId) : StoreM Unit :=
  modify fun store => { store with trees := store.trees.filter fun tree => tree.id ≠ id }

/-- Discard a whole tree. -/
def discard (id : CellId) : StoreM Unit := do
  let cell ← cell id
  if !(← isTop id) then
    throw (.attached id)
  uproot id
  giveSlots (id :: cell.descendants)

end Store

end RingTape
