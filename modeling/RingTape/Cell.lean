import RingTape.Ring

/-!
Cells. A cell holds a value and the materialised part of its ring of children. Its children are cells, so a
cell is a whole tree; `nodes` lists that tree from the cell down, and everything a store looks up is read
off that list.
-/

namespace RingTape

set_option autoImplicit false

/-- The number of the slot a cell occupies. -/
structure CellId where
  slot : Nat
deriving DecidableEq, Repr

def CellId.text (id : CellId) : String :=
  "#" ++ decimalText id.slot

structure Cell where
  id : CellId
  value : Num
  ring : Ring Cell

namespace Cell

/-- A cell none of whose children is materialised. -/
def leaf (id : CellId) (value : Num) : Cell :=
  ⟨id, value, Ring.empty⟩

/-- The number of materialised children. -/
def instantiated (cell : Cell) : Nat :=
  cell.ring.size

/-- Whether every child of the ring is materialised. -/
def isFull (cell : Cell) : Bool :=
  cell.ring.isFull cell.value

def isClosed (cell : Cell) : Bool :=
  cell.ring.isClosed cell.value

/-- Where a child stands in the line of its ring. -/
def placeOf (cell : Cell) (child : CellId) : Nat :=
  cell.ring.line.findIdx fun member => member.id = child

/-- Whether a cell is one of the children. -/
def owns (cell : Cell) (child : CellId) : Bool :=
  (cell.ring.forward.any fun member => member.id = child) ||
    cell.ring.backward.any fun member => member.id = child

mutual

/-- A cell and all cells below it, each before its children. -/
def nodes : Cell → List Cell
  | ⟨id, value, ⟨forward, backward⟩⟩ =>
      ⟨id, value, ⟨forward, backward⟩⟩ :: (forestNodes forward ++ forestNodes backward)

def forestNodes : List Cell → List Cell
  | [] => []
  | cell :: rest => cell.nodes ++ forestNodes rest

end

mutual

/-- The first of `nodes` that passes a test, found without listing them. -/
def find? (test : Cell → Bool) : Cell → Option Cell
  | ⟨id, value, ⟨forward, backward⟩⟩ =>
      if test ⟨id, value, ⟨forward, backward⟩⟩ then
        some ⟨id, value, ⟨forward, backward⟩⟩
      else
        match forestFind? test forward with
        | some cell => some cell
        | none => forestFind? test backward

def forestFind? (test : Cell → Bool) : List Cell → Option Cell
  | [] => none
  | cell :: rest =>
      match cell.find? test with
      | some found => some found
      | none => forestFind? test rest

end

mutual

theorem find?_eq (test : Cell → Bool) (cell : Cell) : cell.find? test = cell.nodes.find? test := by
  match cell with
  | ⟨id, value, ⟨forward, backward⟩⟩ =>
      rw [find?, nodes, List.find?_cons, List.find?_append, ← forestFind?_eq test forward,
        ← forestFind?_eq test backward]
      cases test ⟨id, value, ⟨forward, backward⟩⟩ <;> cases forestFind? test forward <;> rfl

theorem forestFind?_eq (test : Cell → Bool) (cells : List Cell) :
    forestFind? test cells = (forestNodes cells).find? test := by
  match cells with
  | [] => rfl
  | cell :: rest =>
      rw [forestFind?, forestNodes, List.find?_append, ← find?_eq test cell, ← forestFind?_eq test rest]
      cases cell.find? test <;> rfl

end

mutual

/-- The slots of a cell and of all cells below it, each after its children. -/
def postorder : Cell → List CellId
  | ⟨id, _, ⟨forward, backward⟩⟩ => forestPostorder forward ++ forestPostorder backward ++ [id]

def forestPostorder : List Cell → List CellId
  | [] => []
  | cell :: rest => cell.postorder ++ forestPostorder rest

end

/-- The slots of all cells below a cell, each after its children. -/
def descendants (cell : Cell) : List CellId :=
  forestPostorder cell.ring.members

mutual

/-- Change the cell with the given slot, wherever it stands in the tree. -/
def amend (target : CellId) (change : Cell → Cell) : Cell → Cell
  | ⟨id, value, ⟨forward, backward⟩⟩ =>
      if id = target then
        change ⟨id, value, ⟨forward, backward⟩⟩
      else
        ⟨id, value, ⟨forestAmend target change forward, forestAmend target change backward⟩⟩

def forestAmend (target : CellId) (change : Cell → Cell) : List Cell → List Cell
  | [] => []
  | cell :: rest => cell.amend target change :: forestAmend target change rest

end

/-- One step from a cell down to a child, counted from the anchor. -/
inductive Step where
  | forward (index : Nat)
  | backward (index : Nat)
deriving DecidableEq, Repr

mutual

/-- The way from a cell down to the cell with the given slot. -/
def path? (target : CellId) : Cell → Option (List Step)
  | ⟨id, _, ⟨forward, backward⟩⟩ =>
      if id = target then
        some []
      else
        match forestPath? target Step.forward 0 forward with
        | some path => some path
        | none => forestPath? target Step.backward 0 backward

def forestPath? (target : CellId) (step : Nat → Step) (index : Nat) : List Cell → Option (List Step)
  | [] => none
  | cell :: rest =>
      match cell.path? target with
      | some path => some (step index :: path)
      | none => forestPath? target step (index + 1) rest

end

end Cell

end RingTape
