import RingTape.Store.Basic

/-!
Snapshots: the shape of a subtree without its slots. Two subtrees are copies of each other exactly when
their snapshots are equal.
-/

namespace RingTape

set_option autoImplicit false

structure Snapshot where
  value : Num
  /-- The number of materialised children. -/
  materialized : Num
  forward : List Snapshot
  backward : List Snapshot

namespace Snapshot

/-- A cell with no materialised children. -/
def leaf (value : Num) : Snapshot :=
  ⟨value, 0, [], []⟩

/-- A closed ring of leaves. -/
def ringOf (values : List Num) : Snapshot :=
  ⟨Int64.ofNat values.length, Int64.ofNat values.length, values.map leaf, []⟩

end Snapshot

mutual

/-- The shape of a cell and of everything below it. -/
def Cell.snapshot : Cell → Snapshot
  | ⟨_, value, ⟨forward, backward⟩⟩ =>
      ⟨value, Int64.ofNat (forward.length + backward.length), Cell.forestSnapshot forward,
        Cell.forestSnapshot backward⟩

def Cell.forestSnapshot : List Cell → List Snapshot
  | [] => []
  | cell :: rest => cell.snapshot :: Cell.forestSnapshot rest

end

/-- The snapshot of a cell that must be live. -/
def Store.snapshot (id : CellId) : StoreM Snapshot := do
  return (← Store.cell id).snapshot

end RingTape
