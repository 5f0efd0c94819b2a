import RingTape.Store.Copy
import RingTape.Snapshot.Basic

/-!
A tree in a store of its own: the value of a memory literal, and the memory a program starts with.
-/

namespace RingTape

set_option autoImplicit false

structure CellTree where
  store : Store
  root : CellId

namespace CellTree

/-- A tree of the root alone. -/
def leaf (value : Num) : CellTree :=
  let (root, store) := Store.plant value Store.empty
  ⟨store, root⟩

/-- A root with one child for each byte. -/
def ofBytes (bytes : List UInt8) : CellTree :=
  let (root, store) := Store.plantBytes bytes Store.empty
  ⟨store, root⟩

/--
Append a copy of another tree to the ring of the root. The copy is made before it is known whether the root
can take it, so after a failure the store still holds the copy, as a tree beside the root.
-/
def push (child : CellTree) : EStateM Fault CellTree Unit := fun tree =>
  let program : StoreM Unit := do
    let id ← Store.alloc 0
    Store.copyFrom id child.store child.root
    Store.insertChild tree.root id
  match program tree.store with
  | .ok () store => .ok () { tree with store := store }
  | .error fault store => .error fault { tree with store := store }

/-- Append copies of several trees in order. -/
def pushAll : List CellTree → EStateM Fault CellTree Unit
  | [] => return ()
  | child :: rest => do
      push child
      pushAll rest

/-- A root whose ring holds copies of the given trees, in order. -/
def ofChildren (children : List CellTree) : Except Fault CellTree :=
  match pushAll children (leaf 0) with
  | .ok () tree => .ok tree
  | .error fault _ => .error fault

/-- The memory of a program that declares none: a root with one materialised child. -/
def initial : CellTree :=
  ⟨⟨[⟨⟨0⟩, 1, Ring.single (Cell.leaf ⟨1⟩ 0)⟩], ⟨[], 2⟩⟩, ⟨0⟩⟩

def cell? (tree : CellTree) : Option Cell :=
  tree.store.cell? tree.root

/-- The value of the root. -/
def value (tree : CellTree) : Num :=
  match tree.cell? with
  | some cell => cell.value
  | none => 0

def snapshot (tree : CellTree) : Snapshot :=
  match tree.cell? with
  | some cell => cell.snapshot
  | none => Snapshot.leaf 0

end CellTree

end RingTape
