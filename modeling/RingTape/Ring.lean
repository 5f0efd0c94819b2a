import RingTape.Num

/-!
The materialised part of a ring. A ring is entered at its anchor, the head of `forward`; `forward` runs from
the anchor along the ring and `backward` runs the other way, nearest first. A ring of intended size `value`
is closed once it holds that many members, and then `backward` is empty, because the last member of
`forward` is followed by the anchor again.

Every edit is made on `line`, the members from one end of the arc to the other, and `ofLine` folds the
result back around its anchor; `settle` then closes the ring if the edit made it complete.
-/

namespace RingTape

set_option autoImplicit false

structure Ring (α : Type) where
  forward : List α
  backward : List α
deriving DecidableEq, Repr

namespace Ring

variable {α : Type}

def empty : Ring α := ⟨[], []⟩

def single (member : α) : Ring α := ⟨[member], []⟩

def size (ring : Ring α) : Nat :=
  ring.forward.length + ring.backward.length

/-- All members, outward from the anchor. -/
def members (ring : Ring α) : List α :=
  ring.forward ++ ring.backward

/-- All members in the order of the ring, from the far end of `backward` to the end of `forward`. -/
def line (ring : Ring α) : List α :=
  ring.backward.reverse ++ ring.forward

/-- The place of the anchor in `line`. -/
def anchor (ring : Ring α) : Nat :=
  ring.backward.length

/-- The arc with these members whose anchor stands at the given place. -/
def ofLine (line : List α) (anchor : Nat) : Ring α :=
  ⟨line.drop anchor, (line.take anchor).reverse⟩

/-- Whether the ring holds exactly `value` members. -/
def isFull (value : Num) (ring : Ring α) : Bool :=
  (ring.size : Int) == value.toInt

/-- Whether the last member is followed by the first. -/
def isClosed (value : Num) (ring : Ring α) : Bool :=
  !ring.forward.isEmpty && ring.isFull value

/-- Close the arc: what lay behind the anchor is reached by going forward past the end. -/
def join (ring : Ring α) : Ring α :=
  ⟨ring.forward ++ ring.backward.reverse, []⟩

/-- Close the arc if it is complete. -/
def settle (value : Num) (ring : Ring α) : Ring α :=
  if ring.isFull value then ring.join else ring

/-- The member after the one at `place`, if it is materialised. -/
def after? (value : Num) (ring : Ring α) (place : Nat) : Option α :=
  if place + 1 < ring.size then
    ring.line[place + 1]?
  else if ring.isClosed value then
    ring.line.head?
  else
    none

/-- The member before the one at `place`, if it is materialised. -/
def before? (value : Num) (ring : Ring α) (place : Nat) : Option α :=
  if 0 < place then
    ring.line[place - 1]?
  else if ring.isClosed value then
    ring.line.getLast?
  else
    none

/-- Lengthen the arc at its forward end. -/
def pushForward (ring : Ring α) (member : α) : Ring α :=
  { ring with forward := ring.forward ++ [member] }

/-- Lengthen the arc at its backward end. -/
def pushBackward (ring : Ring α) (member : α) : Ring α :=
  { ring with backward := ring.backward ++ [member] }

/-- Put a member in front of the one at `place`; the anchor stays the same member. -/
def insertAt (ring : Ring α) (place : Nat) (member : α) : Ring α :=
  ofLine (ring.line.insertIdx place member)
    (if place ≤ ring.anchor then ring.anchor + 1 else ring.anchor)

/-- Take the member at `place` out. The one at `heir` becomes the anchor if the anchor is taken. -/
def eraseAt (ring : Ring α) (place heir : Nat) : Ring α :=
  let anchor := if ring.anchor = place then heir else ring.anchor
  ofLine (ring.line.eraseIdx place) (if place < anchor then anchor - 1 else anchor)

/-- Make the member at `place` the anchor. -/
def anchorAt (ring : Ring α) (place : Nat) : Ring α :=
  ofLine ring.line place

theorem size_eq_length_line (ring : Ring α) : ring.size = ring.line.length := by
  simp [size, line, Nat.add_comm]

theorem size_eq_length_members (ring : Ring α) : ring.size = ring.members.length := by
  simp [size, members]

theorem mem_members_iff (ring : Ring α) (member : α) :
    member ∈ ring.members ↔ member ∈ ring.line := by
  simp [members, line, or_comm]

@[simp]
theorem line_ofLine (members : List α) (anchor : Nat) : (ofLine members anchor).line = members := by
  simp [ofLine, line]

theorem anchor_ofLine (members : List α) (anchor : Nat) (bounded : anchor ≤ members.length) :
    (ofLine members anchor).anchor = anchor := by
  simp [ofLine, Ring.anchor, Nat.min_eq_left bounded]

/-- A ring is its line folded around its anchor. -/
theorem ofLine_line (ring : Ring α) : ofLine ring.line ring.anchor = ring := by
  simp [ofLine, line, anchor]

@[simp]
theorem line_pushForward (ring : Ring α) (member : α) :
    (ring.pushForward member).line = ring.line ++ [member] := by
  simp [pushForward, line]

@[simp]
theorem line_pushBackward (ring : Ring α) (member : α) :
    (ring.pushBackward member).line = member :: ring.line := by
  simp [pushBackward, line]

@[simp]
theorem line_insertAt (ring : Ring α) (place : Nat) (member : α) :
    (ring.insertAt place member).line = ring.line.insertIdx place member := by
  simp [insertAt]

@[simp]
theorem line_eraseAt (ring : Ring α) (place heir : Nat) :
    (ring.eraseAt place heir).line = ring.line.eraseIdx place := by
  simp [eraseAt]

@[simp]
theorem line_anchorAt (ring : Ring α) (place : Nat) : (ring.anchorAt place).line = ring.line := by
  simp [anchorAt]

/-- Closing an arc neither adds nor loses a member. -/
@[simp]
theorem size_settle (value : Num) (ring : Ring α) : (ring.settle value).size = ring.size := by
  unfold settle
  split <;> simp [join, size]

theorem settle_of_not_full (value : Num) (ring : Ring α) (short : ring.isFull value = false) :
    ring.settle value = ring := by
  simp [settle, short]

/-- A ring that holds all its members has none behind its anchor once it is closed. -/
theorem backward_settle_of_full (value : Num) (ring : Ring α) (full : ring.isFull value = true) :
    (ring.settle value).backward = [] := by
  simp [settle, full, join]

end Ring

end RingTape
