import RingTape.Proofs.Sound
import Mathlib.Data.List.Rotate
import Mathlib.Data.Int.ModEq

/-!
The whole ring behind its materialised part. A cell of value `n` has `n` children, numbered from the anchor;
its `roster` lists them, with `none` for a child that is not in the store yet. Whatever the two arcs look
like, a step, a change of anchor, an insertion and a removal do the same thing to the roster.
-/

namespace RingTape

set_option autoImplicit false

/-- The number of children of a cell of this value. -/
def Num.places (value : Num) : Nat :=
  value.toInt.toNat

namespace Ring

variable {α : Type}

/-- All children from the anchor on, materialised or not. -/
def roster (value : Num) (ring : Ring α) : List (Option α) :=
  ring.forward.map some ++ List.replicate (value.places - ring.size) none ++ ring.backward.reverse.map some

/-- The index that lies so many places further on in a ring of the given size. -/
def turn (size index : Nat) (distance : Int) : Nat :=
  ((index + distance) % size).toNat

theorem turn_lt (size index : Nat) (distance : Int) (positive : 0 < size) :
    turn size index distance < size := by
  have bounded := Int.emod_lt_of_pos ((index : Int) + distance) (Int.natCast_pos.mpr positive)
  unfold turn
  omega

theorem turn_turn (size index : Nat) (first second : Int) (positive : 0 < size) :
    turn size (turn size index first) second = turn size index (first + second) := by
  have nonnegative := Int.emod_nonneg ((index : Int) + first) (Int.natCast_ne_zero.mpr (Nat.ne_of_gt positive))
  unfold turn
  rw [Int.toNat_of_nonneg nonnegative, Int.emod_add_emod, Int.add_assoc]

theorem turn_zero (size index : Nat) (bounded : index < size) : turn size index 0 = index := by
  unfold turn
  rw [Int.add_zero, Int.emod_eq_of_lt (by omega) (by omega)]
  omega

theorem turn_one (size index : Nat) (bounded : index < size) :
    turn size index 1 = if index + 1 = size then 0 else index + 1 := by
  unfold turn
  split
  case isTrue last =>
    rw [show (index : Int) + 1 = size by omega, Int.emod_self]
    rfl
  case isFalse more =>
    rw [Int.emod_eq_of_lt (by omega) (by omega)]
    omega

theorem turn_neg_one (size index : Nat) (bounded : index < size) :
    turn size index (-1) = if index = 0 then size - 1 else index - 1 := by
  unfold turn
  split
  case isTrue first =>
    have wrapped : ((index : Int) + -1) % size = ((size : Int) - 1) % size := by
      rw [first, show (size : Int) - 1 = ((0 : Nat) : Int) + -1 + size by omega, Int.add_emod_right]
    rw [wrapped, Int.emod_eq_of_lt (by omega) (by omega)]
    omega
  case isFalse later =>
    rw [Int.emod_eq_of_lt (by omega) (by omega)]
    omega

/-- In a ring of two or more, the neighbour's neighbour is not the neighbour. -/
theorem turn_twice_ne (size index : Nat) {unit : Int} (sign : unit = 1 ∨ unit = -1) (several : 2 ≤ size) :
    turn size index (unit + unit) ≠ turn size index unit := by
  have bound := turn_lt size index unit (by omega)
  rw [← turn_turn _ _ _ _ (by omega)]
  generalize turn size index unit = position at bound
  rcases sign with forward | backward
  · rw [forward, turn_one _ _ bound]
    split_ifs <;> omega
  · rw [backward, turn_neg_one _ _ bound]
    split_ifs <;> omega

theorem turn_emod (size index : Nat) (distance : Int) :
    turn size index (distance % size) = turn size index distance := by
  unfold turn
  rw [Int.add_emod_emod]

theorem turn_neg_emod (size index : Nat) (distance : Int) :
    turn size index (-(distance % size)) = turn size index (-distance) := by
  unfold turn
  congr 1
  apply Int.ModEq.add_left
  exact (Int.mod_modEq distance size).neg

theorem Fits.size_le {value : Num} {ring : Ring α} (fits : ring.Fits value) : ring.size ≤ value.places := by
  have bounded := fits.bounded
  unfold Num.places
  omega

theorem length_roster (value : Num) (ring : Ring α) (bounded : ring.size ≤ value.places) :
    (ring.roster value).length = value.places := by
  simp only [roster, List.length_append, List.length_map, List.length_replicate, List.length_reverse]
  unfold size at *
  omega

/-- The roster is the line, filled up to the intended size and read from the anchor. -/
theorem roster_eq_rotate (value : Num) (ring : Ring α) :
    ring.roster value =
      (ring.line.map some ++ List.replicate (value.places - ring.size) none).rotate ring.anchor := by
  have bounded : ring.anchor ≤
      (ring.line.map some ++ List.replicate (value.places - ring.size) (none : Option α)).length := by
    simp [anchor, line]
  rw [List.rotate_eq_drop_append_take bounded]
  have reversed : ring.anchor = (ring.backward.reverse.map some).length := by simp [anchor]
  simp only [line, List.map_append, List.append_assoc]
  rw [reversed, List.drop_left, List.take_left]
  simp [roster, List.append_assoc]

/-- The place in the line that belongs to an index of the roster. -/
def placeAt (value : Num) (ring : Ring α) (index : Nat) : Nat :=
  if index + ring.anchor < value.places then index + ring.anchor
  else index + ring.anchor - value.places

theorem getElem?_roster (value : Num) (ring : Ring α) (bounded : ring.size ≤ value.places) (index : Nat)
    (inside : index < value.places) :
    (ring.roster value)[index]? =
      (ring.line.map some ++ List.replicate (value.places - ring.size) none)[ring.placeAt value index]? := by
  have length : (ring.line.map some ++
      List.replicate (value.places - ring.size) (none : Option α)).length = value.places := by
    simp [← size_eq_length_line]
    omega
  have anchorBound : ring.anchor ≤ ring.size := by
    simp [anchor, size]
  rw [roster_eq_rotate, List.getElem?_rotate (by omega), length]
  congr 1
  unfold placeAt
  split
  case isTrue less => exact Nat.mod_eq_of_lt less
  case isFalse more =>
    rw [Nat.mod_eq_sub_mod (by omega), Nat.mod_eq_of_lt (by omega)]

/-- A child on the roster is materialised just when its place lies in the line. -/
theorem getElem?_roster_eq_some_iff (value : Num) (ring : Ring α) (bounded : ring.size ≤ value.places)
    (index : Nat) (member : α) :
    (ring.roster value)[index]? = some (some member) ↔
      index < value.places ∧ ring.line[ring.placeAt value index]? = some member := by
  by_cases inside : index < value.places
  · rw [getElem?_roster value ring bounded index inside, List.getElem?_append]
    simp only [List.length_map, inside, true_and]
    split
    case isTrue less => simp
    case isFalse more =>
      have beyond : ring.line[ring.placeAt value index]? = none := List.getElem?_eq_none (by omega)
      rw [beyond, List.getElem?_replicate]
      split_ifs <;> simp
  · have beyond : (ring.roster value)[index]? = none := by
      apply List.getElem?_eq_none
      rw [length_roster value ring bounded]
      omega
    simp [beyond, inside]

theorem placeAt_lt_of_mem {value : Num} {ring : Ring α} (bounded : ring.size ≤ value.places) {index : Nat}
    {member : α} (seated : (ring.roster value)[index]? = some (some member)) :
    index < value.places ∧ ring.placeAt value index < ring.size ∧
      ring.line[ring.placeAt value index]? = some member := by
  have ⟨inside, there⟩ := (getElem?_roster_eq_some_iff value ring bounded index member).mp seated
  obtain ⟨less, _⟩ := List.getElem?_eq_some_iff.mp there
  rw [← size_eq_length_line] at less
  exact ⟨inside, less, there⟩

theorem exists_index {value : Num} {ring : Ring α} (bounded : ring.size ≤ value.places) {place : Nat}
    {member : α} (there : ring.line[place]? = some member) :
    ∃ index, (ring.roster value)[index]? = some (some member) ∧ ring.placeAt value index = place := by
  obtain ⟨less, _⟩ := List.getElem?_eq_some_iff.mp there
  rw [← size_eq_length_line] at less
  have anchorBound : ring.anchor ≤ ring.size := by simp [anchor, size]
  have same : ring.placeAt value
      (if ring.anchor ≤ place then place - ring.anchor else place + value.places - ring.anchor) = place := by
    unfold placeAt
    split_ifs <;> omega
  refine ⟨if ring.anchor ≤ place then place - ring.anchor else place + value.places - ring.anchor, ?_, same⟩
  rw [getElem?_roster_eq_some_iff value ring bounded, same]
  refine ⟨?_, there⟩
  split_ifs <;> omega

theorem anchor_lt_size {value : Num} {ring : Ring α} (fits : ring.Fits value) (some : 0 < ring.size) :
    ring.anchor < ring.size := by
  have front : ring.forward ≠ [] := by
    intro none
    simp [size, none, fits.anchored none] at some
  have positive := List.length_pos_of_ne_nil front
  simp only [anchor, size]
  omega

theorem isClosed_iff {value : Num} {ring : Ring α} (fits : ring.Fits value) (some : 0 < ring.size) :
    ring.isClosed value = true ↔ ring.size = value.places := by
  have front : ring.forward ≠ [] := by
    intro none
    simp [size, none, fits.anchored none] at some
  have sizeBound := fits.size_le
  simp only [isClosed, isFull, Bool.and_eq_true, Bool.not_eq_true', List.isEmpty_eq_false_iff, beq_iff_eq]
  unfold Num.places at *
  constructor
  · rintro ⟨_, full⟩
    omega
  · intro full
    exact ⟨front, by omega⟩

theorem roster_after? {value : Num} {ring : Ring α} (fits : ring.Fits value) {index : Nat}
    {member following : α} (seated : (ring.roster value)[index]? = some (some member))
    (after : ring.after? value (ring.placeAt value index) = some following) :
    (ring.roster value)[turn value.places index 1]? = some (some following) := by
  have bounded := fits.size_le
  have ⟨inside, less, _⟩ := placeAt_lt_of_mem bounded seated
  have closedIff := isClosed_iff fits (by omega)
  have anchorBound := anchor_lt_size fits (by omega)
  rw [getElem?_roster_eq_some_iff value ring bounded]
  refine ⟨turn_lt _ _ _ (by omega), ?_⟩
  have moved : ring.placeAt value (turn value.places index 1) =
      if ring.placeAt value index + 1 = value.places then 0 else ring.placeAt value index + 1 := by
    rw [turn_one _ _ inside]
    unfold placeAt
    split_ifs <;> omega
  rw [moved]
  unfold after? at after
  split_ifs at after with more closed
  · rw [if_neg (by omega)]
    exact after
  · rw [if_pos (by have := closedIff.mp closed; omega), ← List.head?_eq_getElem?]
    exact after

theorem roster_before? {value : Num} {ring : Ring α} (fits : ring.Fits value) {index : Nat}
    {member preceding : α} (seated : (ring.roster value)[index]? = some (some member))
    (before : ring.before? value (ring.placeAt value index) = some preceding) :
    (ring.roster value)[turn value.places index (-1)]? = some (some preceding) := by
  have bounded := fits.size_le
  have ⟨inside, less, _⟩ := placeAt_lt_of_mem bounded seated
  have closedIff := isClosed_iff fits (by omega)
  have anchorBound := anchor_lt_size fits (by omega)
  rw [getElem?_roster_eq_some_iff value ring bounded]
  refine ⟨turn_lt _ _ _ (by omega), ?_⟩
  have moved : ring.placeAt value (turn value.places index (-1)) =
      if ring.placeAt value index = 0 then value.places - 1 else ring.placeAt value index - 1 := by
    rw [turn_neg_one _ _ inside]
    unfold placeAt
    split_ifs <;> omega
  rw [moved]
  unfold before? at before
  split_ifs at before with more closed
  · rw [if_neg (by omega)]
    exact before
  · rw [if_pos (by omega), ← closedIff.mp closed, size_eq_length_line, ← List.getLast?_eq_getElem?]
    exact before

/-- Where there is no successor, the next index is the first one that is not materialised. -/
theorem roster_after?_none {value : Num} {ring : Ring α} (fits : ring.Fits value) {index : Nat}
    {member : α} (seated : (ring.roster value)[index]? = some (some member))
    (after : ring.after? value (ring.placeAt value index) = none) :
    ring.size < value.places ∧ turn value.places index 1 = ring.forward.length := by
  have bounded := fits.size_le
  have ⟨inside, less, _⟩ := placeAt_lt_of_mem bounded seated
  have closedIff := isClosed_iff fits (by omega)
  have anchorBound := anchor_lt_size fits (by omega)
  have some : ring.line ≠ [] := by
    intro none
    rw [size_eq_length_line, none] at less
    simp at less
  have sizes : ring.size = ring.forward.length + ring.anchor := rfl
  rw [turn_one _ _ inside]
  unfold after? at after
  split_ifs at after with more closed
  · rw [size_eq_length_line] at more
    simp [more] at after
  · simp [some] at after
  · have short : ring.size ≠ value.places := fun full => closed (closedIff.mpr full)
    unfold placeAt at *
    split_ifs at * <;> omega

/-- Where there is no predecessor, the index before is the last one that is not materialised. -/
theorem roster_before?_none {value : Num} {ring : Ring α} (fits : ring.Fits value) {index : Nat}
    {member : α} (seated : (ring.roster value)[index]? = some (some member))
    (before : ring.before? value (ring.placeAt value index) = none) :
    ring.size < value.places ∧
      turn value.places index (-1) = value.places - 1 - ring.backward.length := by
  have bounded := fits.size_le
  have ⟨inside, less, _⟩ := placeAt_lt_of_mem bounded seated
  have closedIff := isClosed_iff fits (by omega)
  have anchorBound := anchor_lt_size fits (by omega)
  have some : ring.line ≠ [] := by
    intro none
    rw [size_eq_length_line, none] at less
    simp at less
  have behind : ring.anchor = ring.backward.length := rfl
  rw [turn_neg_one _ _ inside]
  unfold before? at before
  split_ifs at before with more closed
  · rw [size_eq_length_line] at less
    have present : ring.placeAt value index - 1 < ring.line.length := by omega
    rw [List.getElem?_eq_getElem present] at before
    simp at before
  · simp [some] at before
  · have short : ring.size ≠ value.places := fun full => closed (closedIff.mpr full)
    unfold placeAt at *
    split_ifs at * <;> omega

theorem anchored_settle (value : Num) {ring : Ring α} (anchored : ring.forward = [] → ring.backward = []) :
    (ring.settle value).forward = [] → (ring.settle value).backward = [] := by
  unfold settle
  split
  · intro _
    rfl
  · exact anchored

/-- An arc that is not too long fits once it is closed where it is complete. -/
theorem fits_settle {value : Num} {ring : Ring α} (anchored : ring.forward = [] → ring.backward = [])
    (bounded : (ring.size : Int) ≤ max value.toInt 0) : (ring.settle value).Fits value := by
  refine ⟨anchored_settle value anchored, by simpa using bounded, ?_⟩
  intro full
  have wasFull : ring.isFull value = true := by simpa [isFull] using full
  exact backward_settle_of_full value ring wasFull

@[simp]
theorem roster_settle (value : Num) (ring : Ring α) : (ring.settle value).roster value = ring.roster value := by
  unfold settle
  split
  case isTrue full =>
    have size : ring.size = value.places := by
      have equal : (ring.size : Int) = value.toInt := by simpa [isFull] using full
      unfold Num.places
      omega
    have joined : ring.join.size = value.places := by simpa [join, Ring.size] using size
    simp only [roster, joined, size, Nat.sub_self, List.replicate_zero, List.append_nil]
    simp [join]
  case isFalse _ => rfl

theorem members_settle_perm (value : Num) (ring : Ring α) :
    (ring.settle value).members.Perm ring.members := by
  unfold settle
  split
  · simp only [join, members, List.append_nil]
    exact (List.reverse_perm _).append_left _
  · exact List.Perm.refl _

theorem line_perm_members (ring : Ring α) : ring.line.Perm ring.members :=
  (List.perm_append_comm).trans ((List.reverse_perm _).append_left _)

theorem roster_pushForward (value : Num) (ring : Ring α) (member : α) (short : ring.size < value.places) :
    (ring.pushForward member).roster value =
      (ring.roster value).set ring.forward.length (some member) := by
  have gap : value.places - ring.size = value.places - (ring.pushForward member).size + 1 := by
    simp only [pushForward, size, List.length_append, List.length_cons, List.length_nil] at *
    omega
  unfold roster
  rw [gap, List.replicate_succ]
  simp [pushForward]

theorem roster_pushBackward (value : Num) (ring : Ring α) (member : α) (short : ring.size < value.places) :
    (ring.pushBackward member).roster value =
      (ring.roster value).set (value.places - 1 - ring.backward.length) (some member) := by
  have gap : value.places - ring.size = value.places - (ring.pushBackward member).size + 1 := by
    simp only [pushBackward, size, List.length_append, List.length_cons, List.length_nil] at *
    omega
  have front : value.places - 1 - ring.backward.length =
      ring.forward.length + (value.places - (ring.pushBackward member).size) := by
    simp only [pushBackward, size, List.length_append, List.length_cons, List.length_nil] at *
    omega
  unfold roster
  rw [gap, front, List.replicate_succ']
  simp [pushBackward]

theorem roster_gap {value : Num} {ring : Ring α} {index : Nat} (after : ring.forward.length ≤ index)
    (before : index + ring.backward.length < value.places) : (ring.roster value)[index]? = some none := by
  have inside : index - ring.forward.length < value.places - ring.size := by
    unfold size
    omega
  rw [roster, List.append_assoc, List.getElem?_append_right (by simpa using after),
    List.getElem?_append_left (by simpa using inside), List.getElem?_replicate, List.length_map,
    if_pos inside]

/-- A ring has a member for each place if no index of its roster is empty. -/
theorem size_of_filled {value : Num} {ring : Ring α} (fits : ring.Fits value)
    (filled : ∀ index, index < value.places → ∃ member, (ring.roster value)[index]? = some (some member)) :
    ring.size = value.places := by
  have bounded := fits.size_le
  by_contra short
  unfold size at short bounded
  obtain ⟨member, there⟩ := filled ring.forward.length (by omega)
  rw [roster_gap (Nat.le_refl _) (by omega)] at there
  cases there

theorem fits_pushForward {value : Num} {ring : Ring α} (member : α) (short : ring.size < value.places) :
    ((ring.pushForward member).settle value).Fits value := by
  unfold Num.places at short
  apply fits_settle
  · simp [pushForward]
  · simp only [size, pushForward, List.length_append, List.length_cons, List.length_nil] at short ⊢
    omega

theorem fits_pushBackward {value : Num} {ring : Ring α} (fits : ring.Fits value) (member : α)
    (some : 0 < ring.size) (short : ring.size < value.places) :
    ((ring.pushBackward member).settle value).Fits value := by
  unfold Num.places at short
  apply fits_settle
  · intro none
    have noForward : ring.forward = [] := none
    simp [size, noForward, fits.anchored noForward] at some
  · simp only [size, pushBackward, List.length_append, List.length_cons, List.length_nil] at short ⊢
    omega

/-- Moving the anchor turns the roster. -/
theorem roster_anchorAt {value : Num} {ring : Ring α} (bounded : ring.size ≤ value.places) {index : Nat}
    {member : α} (seated : (ring.roster value)[index]? = some (some member)) :
    (ring.anchorAt (ring.placeAt value index)).roster value = (ring.roster value).rotate index := by
  have ⟨inside, less, _⟩ := placeAt_lt_of_mem bounded seated
  have sameSize : (ring.anchorAt (ring.placeAt value index)).size = ring.size := by
    simp [size_eq_length_line]
  have placed : (ring.anchorAt (ring.placeAt value index)).anchor = ring.placeAt value index := by
    apply anchor_ofLine
    rw [← size_eq_length_line]
    omega
  have length : (ring.line.map some ++
      List.replicate (value.places - ring.size) (none : Option α)).length = value.places := by
    simp [← size_eq_length_line]
    omega
  have anchorBound : ring.anchor ≤ ring.size := by simp [anchor, size]
  rw [roster_eq_rotate, roster_eq_rotate, List.rotate_rotate, sameSize, placed, line_anchorAt]
  rw [← List.rotate_mod _ (ring.anchor + index), length]
  congr 1
  unfold placeAt
  split
  case isTrue less => rw [Nat.mod_eq_of_lt (by omega), Nat.add_comm]
  case isFalse more =>
    rw [Nat.mod_eq_sub_mod (by omega), Nat.mod_eq_of_lt (by omega), Nat.add_comm]

theorem insertIdx_append_length (left right : List α) (member : α) :
    (left ++ right).insertIdx left.length member = left ++ member :: right := by
  induction left with
  | nil => rfl
  | cons first rest induction => simp [induction]

theorem eraseIdx_append_length (left right : List α) (member : α) :
    (left ++ member :: right).eraseIdx left.length = left ++ right := by
  rw [List.eraseIdx_append_of_length_le (Nat.le_refl _)]
  simp

theorem exists_append_of_le (list : List α) (count : Nat) (bounded : count ≤ list.length) :
    ∃ left right, list = left ++ right ∧ left.length = count :=
  ⟨list.take count, list.drop count, (List.take_append_drop count list).symm, by
    rw [List.length_take]
    omega⟩

/-- Every place lies behind the anchor, at the anchor, or further on. -/
theorem place_cases (ring : Ring α) (place : Nat) (member : α) (there : ring.line[place]? = some member) :
    (∃ forward far near : List α,
      ring = ⟨forward, (far ++ member :: near).reverse⟩ ∧ place = far.length) ∨
    (∃ far behind : List α, ring = ⟨member :: far, behind.reverse⟩ ∧ place = behind.length) ∨
    ∃ (first : α) (near far behind : List α),
      ring = ⟨first :: near ++ member :: far, behind.reverse⟩ ∧
        place = behind.length + (near.length + 1) := by
  rcases ring with ⟨forward, backward⟩
  obtain ⟨behind, rfl⟩ : ∃ behind : List α, backward = behind.reverse := ⟨backward.reverse, by simp⟩
  simp only [line, List.reverse_reverse] at there
  by_cases before : place < behind.length
  · left
    rw [List.getElem?_append_left before] at there
    obtain ⟨far, near, split, length⟩ := exists_append_of_le behind place (Nat.le_of_lt before)
    subst split
    rw [← length, List.getElem?_append_right (Nat.le_refl _), Nat.sub_self, ← List.head?_eq_getElem?] at there
    obtain ⟨rest, same⟩ := List.head?_eq_some_iff.mp there
    exact ⟨forward, far, rest, by rw [same], length.symm⟩
  · right
    rw [List.getElem?_append_right (by omega)] at there
    obtain ⟨bounded, _⟩ := List.getElem?_eq_some_iff.mp there
    obtain ⟨near, far, split, length⟩ := exists_append_of_le forward (place - behind.length) (by omega)
    subst split
    rw [← length, List.getElem?_append_right (Nat.le_refl _), Nat.sub_self, ← List.head?_eq_getElem?] at there
    obtain ⟨rest, same⟩ := List.head?_eq_some_iff.mp there
    subst same
    cases near with
    | nil =>
        left
        simp only [List.length_nil] at length
        exact ⟨rest, behind, rfl, by omega⟩
    | cons first near =>
        right
        simp only [List.length_cons] at length
        exact ⟨first, near, rest, behind, rfl, by omega⟩

theorem insertAt_behind (forward far near : List α) (member : α) :
    (⟨forward, (far ++ near).reverse⟩ : Ring α).insertAt far.length member =
      ⟨forward, (far ++ member :: near).reverse⟩ := by
  have inserted : (far ++ near ++ forward).insertIdx far.length member = (far ++ member :: near) ++ forward := by
    rw [List.append_assoc, insertIdx_append_length]
    simp
  have longer : far.length + near.length + 1 = (far ++ member :: near).length := by
    simp [Nat.add_assoc]
  simp only [insertAt, line, anchor, List.reverse_reverse, List.length_reverse, List.length_append]
  rw [inserted, if_pos (by omega), ofLine, longer, List.drop_left, List.take_left]

theorem insertAt_ahead (first : α) (near far behind : List α) (member : α) :
    (⟨first :: near ++ far, behind.reverse⟩ : Ring α).insertAt (behind.length + (near.length + 1)) member =
      ⟨first :: near ++ member :: far, behind.reverse⟩ := by
  have inserted : (behind ++ (first :: near ++ far)).insertIdx (behind.length + (near.length + 1)) member =
      behind ++ (first :: near ++ member :: far) := by
    have place : behind.length + (near.length + 1) = (behind ++ first :: near).length := by simp
    rw [place, ← List.append_assoc, insertIdx_append_length]
    simp
  simp only [insertAt, line, anchor, List.reverse_reverse, List.length_reverse]
  rw [inserted, if_neg (by omega), ofLine, List.drop_left, List.take_left]

theorem eraseAt_behind (forward far near : List α) (member : α) (heir : Nat) :
    (⟨forward, (far ++ member :: near).reverse⟩ : Ring α).eraseAt far.length heir =
      ⟨forward, (far ++ near).reverse⟩ := by
  have erased : (far ++ member :: near ++ forward).eraseIdx far.length = (far ++ near) ++ forward := by
    rw [List.append_assoc, List.cons_append, eraseIdx_append_length]
    simp
  have shorter : far.length + (near.length + 1) - 1 = (far ++ near).length := by
    simp
  simp only [eraseAt, line, anchor, List.reverse_reverse, List.length_reverse, List.length_append,
    List.length_cons]
  rw [erased, if_neg (show ¬ far.length + (near.length + 1) = far.length by omega), if_pos (by omega), ofLine,
    shorter, List.drop_left, List.take_left]

theorem eraseAt_ahead (first : α) (near far behind : List α) (member : α) (heir : Nat) :
    (⟨first :: near ++ member :: far, behind.reverse⟩ : Ring α).eraseAt
        (behind.length + (near.length + 1)) heir = ⟨first :: near ++ far, behind.reverse⟩ := by
  have erased : (behind ++ (first :: near ++ member :: far)).eraseIdx (behind.length + (near.length + 1)) =
      behind ++ (first :: near ++ far) := by
    have place : behind.length + (near.length + 1) = (behind ++ first :: near).length := by simp
    rw [place, ← List.append_assoc, eraseIdx_append_length]
    simp
  simp only [eraseAt, line, anchor, List.reverse_reverse, List.length_reverse]
  rw [erased, if_neg (show ¬ behind.length = behind.length + (near.length + 1) by omega), if_neg (by omega),
    ofLine, List.drop_left, List.take_left]

theorem eraseAt_anchor (far behind : List α) (member : α) (heir : Nat) :
    (⟨member :: far, behind.reverse⟩ : Ring α).eraseAt behind.length heir =
      ofLine (behind ++ far) (if behind.length < heir then heir - 1 else heir) := by
  simp only [eraseAt, line, anchor, List.reverse_reverse, List.length_reverse, if_true]
  rw [eraseIdx_append_length]

theorem roster_mk (value : Num) (forward behind : List α) :
    (⟨forward, behind.reverse⟩ : Ring α).roster value =
      forward.map some ++ List.replicate (value.places - (forward.length + behind.length)) none ++
        behind.map some := by
  simp [roster, size]

/-- A new member lands just before the one it is put in front of; before the anchor is the end. -/
theorem roster_insertAt {value later : Num} {ring : Ring α} (fits : ring.Fits value)
    (grown : later.places = value.places + 1) {index : Nat} {host : α}
    (seated : (ring.roster value)[index]? = some (some host)) (member : α) :
    (ring.insertAt (ring.placeAt value index) member).roster later =
      (ring.roster value).insertIdx (if index = 0 then value.places else index) (some member) := by
  have bounded := fits.size_le
  have ⟨inside, less, there⟩ := placeAt_lt_of_mem bounded seated
  have anchorBound := anchor_lt_size fits (by omega)
  have whole := length_roster value ring bounded
  -- Behind the anchor the place is counted from the far end of the roster, ahead of it from the near one.
  generalize place : ring.placeAt value index = spot at *
  unfold placeAt at place
  rcases place_cases ring spot host there with
    ⟨forward, far, near, rfl, rfl⟩ | ⟨far, behind, rfl, rfl⟩ | ⟨first, near, far, behind, rfl, rfl⟩
  · simp only [anchor, size, List.length_reverse, List.length_append, List.length_cons] at *
    have position : (if index = 0 then value.places else index) =
        (forward.map some ++ List.replicate (value.places -
          (forward.length + (far.length + (near.length + 1)))) (none : Option α) ++ far.map some).length := by
      simp only [List.length_append, List.length_map, List.length_replicate]
      split_ifs at * <;> omega
    rw [insertAt_behind, roster_mk, roster_mk, position, List.map_append, List.map_append, List.length_append,
      List.length_append, List.length_cons, List.length_cons, ← List.append_assoc, ← List.append_assoc,
      insertIdx_append_length, grown]
    rw [show value.places + 1 - (forward.length + (far.length + (near.length + 1 + 1))) =
      value.places - (forward.length + (far.length + (near.length + 1))) by omega]
    simp
  · have last : index = 0 := by
      simp only [anchor, size, List.length_reverse, List.length_cons] at *
      split_ifs at * <;> omega
    have ahead := insertAt_behind (host :: far) behind [] member
    rw [List.append_nil] at ahead
    rw [ahead, if_pos last, ← whole, List.insertIdx_length_self, roster_mk, roster_mk, grown]
    simp only [List.length_append, List.length_cons, List.length_nil]
    rw [show value.places + 1 - (far.length + 1 + (behind.length + (0 + 1))) =
      value.places - (far.length + 1 + behind.length) by omega]
    simp
  · simp only [anchor, size, List.length_reverse, List.length_append, List.length_cons] at *
    have position : (if index = 0 then value.places else index) = ((first :: near).map some).length := by
      simp only [List.length_map, List.length_cons]
      split_ifs at * <;> omega
    rw [insertAt_ahead, roster_mk, roster_mk, position, List.map_append, List.map_append]
    simp only [List.append_assoc]
    rw [insertIdx_append_length, grown]
    simp only [List.length_append, List.length_cons]
    rw [show value.places + 1 - (near.length + 1 + (far.length + 1 + 1) + behind.length) =
      value.places - (near.length + 1 + (far.length + 1) + behind.length) by omega]
    simp

/-- When the anchor goes, what is left is the same line, read from the place of the heir. -/
theorem roster_eraseAt_anchor {value later : Num} {far behind : List α} {gone : α}
    (bounded : (⟨gone :: far, behind.reverse⟩ : Ring α).size ≤ value.places)
    (shrunk : later.places + 1 = value.places) {successor : Nat} (positive : 0 < successor)
    (inside : successor < value.places)
    (less : (⟨gone :: far, behind.reverse⟩ : Ring α).placeAt value successor <
      (⟨gone :: far, behind.reverse⟩ : Ring α).size) :
    ((⟨gone :: far, behind.reverse⟩ : Ring α).eraseAt behind.length
        ((⟨gone :: far, behind.reverse⟩ : Ring α).placeAt value successor)).roster later =
      (((⟨gone :: far, behind.reverse⟩ : Ring α).roster value).eraseIdx 0).rotate (successor - 1) := by
  have rest : ((⟨gone :: far, behind.reverse⟩ : Ring α).roster value).eraseIdx 0 =
      ((behind ++ far).map some ++ List.replicate (later.places - (behind ++ far).length) none).rotate
        behind.length := by
    have start : behind.length = (behind.map (some : α → Option α)).length := by simp
    have turned := List.rotate_append_length_eq (behind.map some)
      (far.map some ++ List.replicate (later.places - (behind ++ far).length) (none : Option α))
    rw [List.map_append, List.append_assoc, start, turned, roster_mk, ← shrunk, List.length_append,
      List.length_cons, show later.places + 1 - (far.length + 1 + behind.length) =
        later.places - (behind.length + far.length) by omega]
    simp
  simp only [placeAt, anchor, size, List.length_reverse, List.length_cons] at *
  have length : ((behind ++ far).map some ++
      List.replicate (later.places - (behind ++ far).length) (none : Option α)).length = later.places := by
    simp only [List.length_append, List.length_map, List.length_replicate]
    omega
  rw [eraseAt_anchor, roster_eq_rotate, anchor_ofLine, line_ofLine, size_eq_length_line, line_ofLine, rest,
    List.rotate_rotate, ← List.rotate_mod _ (behind.length + (successor - 1)), length]
  · congr 1
    by_cases ahead : successor + behind.length < value.places
    · rw [if_pos ahead] at less ⊢
      rw [if_pos (by omega), Nat.mod_eq_of_lt (by omega)]
      omega
    · rw [if_neg ahead] at less ⊢
      rw [if_neg (by omega), show behind.length + (successor - 1) =
        successor + behind.length - value.places + later.places by omega, Nat.add_mod_right,
        Nat.mod_eq_of_lt (by omega)]
  · rw [List.length_append]
    split_ifs at less ⊢ <;> omega

/-- Without one of its members the roster is shorter by that member. If the member was the anchor, the roster
is read from its heir on. -/
theorem roster_eraseAt {value later : Num} {ring : Ring α} (fits : ring.Fits value)
    (shrunk : later.places + 1 = value.places) {index successor : Nat} {gone heir : α}
    (seated : (ring.roster value)[index]? = some (some gone))
    (heirSeated : (ring.roster value)[successor]? = some (some heir)) (other : successor ≠ index) :
    (ring.eraseAt (ring.placeAt value index) (ring.placeAt value successor)).roster later =
      if index = 0 then ((ring.roster value).eraseIdx 0).rotate (successor - 1)
      else (ring.roster value).eraseIdx index := by
  have bounded := fits.size_le
  have ⟨inside, less, there⟩ := placeAt_lt_of_mem bounded seated
  have ⟨heirInside, heirLess, _⟩ := placeAt_lt_of_mem bounded heirSeated
  have anchorBound := anchor_lt_size fits (by omega)
  -- Only where the anchor itself goes does the reading start elsewhere afterwards.
  generalize place : ring.placeAt value index = spot at *
  unfold placeAt at place
  rcases place_cases ring spot gone there with
    ⟨forward, far, near, rfl, rfl⟩ | ⟨far, behind, rfl, rfl⟩ | ⟨first, near, far, behind, rfl, rfl⟩
  · simp only [anchor, size, List.length_reverse, List.length_append, List.length_cons] at *
    have position : index = (forward.map some ++ List.replicate (value.places -
        (forward.length + (far.length + (near.length + 1)))) (none : Option α) ++ far.map some).length := by
      simp only [List.length_append, List.length_map, List.length_replicate]
      split_ifs at * <;> omega
    rw [if_neg (by split_ifs at * <;> omega), eraseAt_behind, roster_mk, roster_mk, position, List.map_append,
      List.map_append, List.length_append, List.length_append, List.length_cons, List.map_cons,
      ← List.append_assoc, ← List.append_assoc, eraseIdx_append_length, ← shrunk]
    rw [show later.places + 1 - (forward.length + (far.length + (near.length + 1))) =
      later.places - (forward.length + (far.length + near.length)) by omega]
  · have first : index = 0 := by
      simp only [anchor, size, List.length_reverse, List.length_cons] at *
      split_ifs at * <;> omega
    subst first
    rw [if_pos rfl]
    exact roster_eraseAt_anchor bounded shrunk (Nat.pos_of_ne_zero other) heirInside heirLess
  · simp only [anchor, size, List.length_reverse, List.length_append, List.length_cons] at *
    have position : index = ((first :: near).map some).length := by
      simp only [List.length_map, List.length_cons]
      split_ifs at * <;> omega
    have notFirst : index ≠ 0 := by
      simp only [List.length_map, List.length_cons] at position
      omega
    have shape : (⟨first :: near ++ gone :: far, behind.reverse⟩ : Ring α).roster value =
        (first :: near).map some ++ some gone :: (far.map some ++ List.replicate (value.places -
          (near.length + 1 + (far.length + 1) + behind.length)) none ++ behind.map some) := by
      rw [roster_mk]
      simp
      omega
    rw [if_neg notFirst, eraseAt_ahead, roster_mk, shape, position, eraseIdx_append_length, ← shrunk]
    simp only [List.length_append, List.length_cons]
    rw [show later.places + 1 - (near.length + 1 + (far.length + 1) + behind.length) =
      later.places - (near.length + 1 + far.length + behind.length) by omega]
    simp

end Ring

end RingTape
