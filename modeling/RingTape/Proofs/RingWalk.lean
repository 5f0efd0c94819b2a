import RingTape.Proofs.RingTree

/-!
Walks along a ring. However far a walk zigzags, and wherever the arc is closed in the middle of it, two points
of the walk are at the same cell just when the ways to them agree modulo the size of the ring.
-/

namespace RingTape

set_option autoImplicit false

/-- One move along a ring. -/
inductive Stride where
  | prev
  | next
  | back (count : Num)
  | forward (count : Num)
deriving DecidableEq, Repr

namespace Stride

def run : Stride → CellId → StoreM CellId
  | .prev, id => Store.prev id
  | .next, id => Store.next id
  | .back count, id => Store.shiftBack id count
  | .forward count, id => Store.shiftForward id count

/-- How many places a move goes forward, counted in full. -/
def distance : Stride → Int
  | .prev => -1
  | .next => 1
  | .back count => -count.toInt
  | .forward count => count.toInt

/-- How many places several moves go forward together. -/
def displacement (moves : List Stride) : Int :=
  (moves.map distance).sum

@[simp]
theorem displacement_nil : displacement [] = 0 := rfl

@[simp]
theorem displacement_cons (move : Stride) (rest : List Stride) :
    displacement (move :: rest) = move.distance + displacement rest := by
  simp [displacement]

theorem displacement_replicate (count : Nat) (move : Stride) :
    displacement (List.replicate count move) = count * move.distance := by
  simp [displacement]

theorem strides (move : Stride) : Store.Strides move.run move.distance := by
  cases move with
  | prev => exact Store.strides_prev
  | next => exact Store.strides_next
  | back count => exact Store.strides_shiftBack count
  | forward count => exact Store.strides_shiftForward count

end Stride

/-- Two ways lead to the same index just when they agree modulo the size of the ring. -/
theorem Ring.turn_eq_turn_iff (size index : Nat) (first second : Int) (positive : 0 < size) :
    turn size index first = turn size index second ↔ first ≡ second [ZMOD size] := by
  have apart : (size : Int) ≠ 0 := Int.natCast_ne_zero.mpr (Nat.ne_of_gt positive)
  have firstBound := Int.emod_nonneg ((index : Int) + first) apart
  have secondBound := Int.emod_nonneg ((index : Int) + second) apart
  have sums : turn size index first = turn size index second ↔
      (index : Int) + first ≡ index + second [ZMOD size] := by
    unfold turn Int.ModEq
    omega
  rw [sums]
  exact ⟨Int.ModEq.add_left_cancel' _, Int.ModEq.add_left _⟩

namespace Store

open Stride (displacement)

/-- The cells met on a walk, with the one that it starts from. -/
def walk : List Stride → CellId → StoreM (List CellId)
  | [], id => return [id]
  | move :: rest, id => do
      let visited ← walk rest (← move.run id)
      return id :: visited

section Seats

variable {store : Store} (sound : store.Sound) {host : Cell} (inside : host ∈ store.nodes)

include sound inside

/-- Different indices of a roster seat different cells. -/
theorem seat_id_eq_iff {first second : Cell} {index other : Nat} (seated : host.Seats index first)
    (otherSeated : host.Seats other second) : first.id = second.id ↔ index = other := by
  obtain ⟨_, less⟩ := value_pos_of_seat sound inside seated
  obtain ⟨_, otherLess⟩ := value_pos_of_seat sound inside otherSeated
  obtain ⟨_, place⟩ := parent?_of_seat sound inside seated
  obtain ⟨_, otherPlace⟩ := parent?_of_seat sound inside otherSeated
  constructor
  · intro same
    rw [same, otherPlace] at place
    unfold Ring.placeAt at place
    split_ifs at place <;> omega
  · intro same
    rw [same, Cell.Seats, otherSeated] at seated
    simp only [Option.some.injEq] at seated
    rw [seated]

/-- A way that goes round the ring some number of times leads back. -/
theorem Strides.returns {step : CellId → StoreM CellId} {distance : Int} (leads : Strides step distance)
    {member : Cell} {index : Nat} (seated : host.Seats index member) (round : host.value.toInt ∣ distance) :
    ∃ after, step member.id store = .ok member.id after := by
  obtain ⟨positive, less⟩ := value_pos_of_seat sound inside seated
  have size : host.value.toInt = host.value.places := by
    unfold Num.places
    omega
  obtain ⟨reached, ring, pool, ran, grown, there⟩ := leads store host member index sound inside seated
  have stays : Ring.turn host.value.places index distance = index := by
    have none : distance ≡ 0 [ZMOD host.value.places] := by
      rw [← size]
      exact Int.modEq_zero_iff_dvd.mpr round
    rw [(Ring.turn_eq_turn_iff _ index _ _ (by omega)).mpr none, Ring.turn_zero _ _ less]
  rw [stays] at there
  have present := host_mem_replace sound.distinct inside host.value ring pool
  have same := (seat_id_eq_iff (sound.grow inside grown) present there (grown.kept index member seated)).mpr rfl
  rw [same] at ran
  exact ⟨_, ran⟩

/--
A walk lets the ring grow, and meets at each of its points the cell at the index that the way so far leads to. The
cells are compared in the ring that the whole walk leaves, where all of them have their index.
-/
theorem run_walk (moves : List Stride) {member : Cell} {index : Nat} (seated : host.Seats index member) :
    ∃ (visited : List CellId) (ring : Ring Cell) (pool : Pool),
      host.Grown ring store.pool pool ∧ visited.length = moves.length + 1 ∧
        ∀ point ≤ moves.length, ∃ (near : Ring Cell) (between : Pool) (reached : Cell),
          walk (moves.take point) member.id store =
              .ok (visited.take (point + 1)) (store.replace host.id host.value near between) ∧
            host.Grown near store.pool between ∧ visited[point]? = some reached.id ∧
            (host.withRing host.value ring).Seats
              (Ring.turn host.value.places index (displacement (moves.take point))) reached := by
  induction moves generalizing store host member index with
  | nil =>
      have grown := Cell.Grown.refl (sound.rings host inside) store.pool
      refine ⟨[member.id], host.ring, store.pool, grown, rfl, ?_⟩
      intro point bounded
      have start : point = 0 := Nat.le_zero.mp bounded
      subst start
      refine ⟨host.ring, store.pool, member, ?_, grown, rfl, ?_⟩
      · rw [replace_self sound.distinct inside]
        rfl
      · rw [List.take_zero, Stride.displacement_nil, Ring.turn_zero _ _ (value_pos_of_seat sound inside seated).2]
        exact seated
  | cons move rest induction =>
      have fits := sound.rings host inside
      obtain ⟨_, less⟩ := value_pos_of_seat sound inside seated
      obtain ⟨second, near, between, stepped, grown, there⟩ :=
        move.strides store host member index sound inside seated
      have present := host_mem_replace sound.distinct inside host.value near between
      obtain ⟨visited, ring, pool, wider, length, met⟩ := induction (sound.grow inside grown) present there
      refine ⟨member.id :: visited, ring, pool, grown.trans fits wider, by simp [length], ?_⟩
      intro point bounded
      cases point with
      | zero =>
          -- The first cell keeps its index, however much the ring grows later.
          refine ⟨host.ring, store.pool, member, ?_, Cell.Grown.refl fits _, rfl, ?_⟩
          · rw [replace_self sound.distinct inside]
            rfl
          · rw [List.take_zero, Stride.displacement_nil, Ring.turn_zero _ _ less]
            exact wider.kept index member (grown.kept index member seated)
      | succ point =>
          obtain ⟨wide, later, reached, ran, further, atPoint, arrived⟩ := met point (by simpa using bounded)
          rw [Cell.id_withRing, Cell.value_withRing, replace_replace] at ran
          rw [Cell.value_withRing, Ring.turn_turn _ _ _ _ (by omega)] at arrived
          refine ⟨wide, later, reached, ?_, grown.trans fits further, atPoint, ?_⟩
          · rw [List.take_succ_cons, walk, run_bind_ok stepped, run_bind_ok ran]
            rfl
          · rw [List.take_succ_cons, Stride.displacement_cons]
            exact arrived

end Seats

/--
What a walk from one member of a ring does: every move of it succeeds, the parent keeps its value and never has more
children than that, and two points are at the same cell just when the ways to them agree modulo the size.
-/
structure Walked (store : Store) (parent cell : CellId) (size : Num) (moves : List Stride)
    (visited : List CellId) : Prop where
  length : visited.length = moves.length + 1
  succeeds : ∀ point ≤ moves.length, ∃ after host,
    walk (moves.take point) cell store = .ok (visited.take (point + 1)) after ∧
      after.cell? parent = some host ∧ host.value = size ∧ (host.instantiated : Int) ≤ size.toInt
  again : ∀ near ≤ moves.length, ∀ far ≤ moves.length, visited[near]? = visited[far]? ↔
    displacement (moves.take near) ≡ displacement (moves.take far) [ZMOD size.toInt]

theorem Walked.first {store : Store} {parent cell : CellId} {size : Num} {moves : List Stride}
    {visited : List CellId} (walked : Walked store parent cell size moves visited) : visited[0]? = some cell := by
  obtain ⟨after, _, ran, _⟩ := walked.succeeds 0 (Nat.zero_le _)
  have alone : visited.take 1 = [cell] := by
    injection ran with same
    exact same.symm
  rw [← List.getElem?_take_of_lt Nat.zero_lt_one, alone]
  rfl

theorem walked_of_seat {store : Store} (sound : store.Sound) {host member : Cell} {index : Nat}
    (inside : host ∈ store.nodes) (seated : host.Seats index member) (moves : List Stride) :
    ∃ visited, Walked store host.id member.id host.value moves visited := by
  obtain ⟨positive, less⟩ := value_pos_of_seat sound inside seated
  have places : host.value.toInt = host.value.places := by
    unfold Num.places
    omega
  obtain ⟨visited, ring, pool, grown, length, met⟩ := run_walk sound inside moves seated
  have final := sound.grow inside grown
  have present := host_mem_replace sound.distinct inside host.value ring pool
  refine ⟨visited, length, ?_, ?_⟩
  · intro point bounded
    obtain ⟨near, between, reached, ran, wider, _⟩ := met point bounded
    refine ⟨_, host.withRing host.value near, ran,
      cell?_replace sound.distinct inside (sound.grow inside wider).distinct, rfl, ?_⟩
    have most := wider.fits.bounded
    rw [Cell.instantiated, Cell.ring_withRing]
    omega
  · intro near nearBound far farBound
    obtain ⟨_, _, first, _, _, atNear, nearSeat⟩ := met near nearBound
    obtain ⟨_, _, second, _, _, atFar, farSeat⟩ := met far farBound
    rw [atNear, atFar, Option.some.injEq, seat_id_eq_iff final present nearSeat farSeat,
      Ring.turn_eq_turn_iff _ _ _ _ (by omega), places]

/-- As many steps forward as a ring has members visit each of them once and come back to the first. -/
theorem Walked.round {store : Store} {parent cell : CellId} {size : Num} {visited : List CellId}
    (positive : 0 < size.toInt)
    (walked : Walked store parent cell size (List.replicate size.places .next) visited) :
    visited = visited.take size.places ++ [cell] ∧ (visited.take size.places).length = size.places ∧
      (visited.take size.places).Nodup := by
  have places : size.toInt = size.places := by
    unfold Num.places
    omega
  have length := walked.length
  have again (near far : Nat) (nearBound : near ≤ size.places) (farBound : far ≤ size.places) :
      visited[near]? = visited[far]? ↔ (near : Int) ≡ far [ZMOD size.places] := by
    have met := walked.again near (by simpa using nearBound) far (by simpa using farBound)
    rw [List.take_replicate, List.take_replicate, Nat.min_eq_left nearBound, Nat.min_eq_left farBound,
      Stride.displacement_replicate, Stride.displacement_replicate, places] at met
    simpa [Stride.distance] using met
  have last : visited[size.places]? = some cell := by
    rw [(again size.places 0 (Nat.le_refl _) (Nat.zero_le _)).mpr (by simp [Int.ModEq]), walked.first]
  rw [List.length_replicate] at length
  refine ⟨?_, by simp [length], ?_⟩
  · have split := List.take_add_one (l := visited) (i := size.places)
    rw [last, List.take_of_length_le (by omega)] at split
    exact split
  · rw [List.nodup_iff_getElem?_ne_getElem?]
    intro near far less bounded
    rw [List.length_take] at bounded
    rw [List.getElem?_take_of_lt (by omega), List.getElem?_take_of_lt (by omega), Ne,
      again near far (by omega) (by omega), Int.ModEq, Int.emod_eq_of_lt (by omega) (by omega),
      Int.emod_eq_of_lt (by omega) (by omega)]
    omega

/--
Whatever moves are made one after the other from a member of a ring, the walk goes as `Walked` says. So shifts
there and back return, a shift by a multiple of the size stays, and as many steps as there are members visit each
of them once and come back.
-/
theorem walk_meets_again_iff (store : Store) (formed : store.WellFormed) (parent cell : CellId) (size : Num)
    (child : store.parentLink cell = some parent) (valued : store.value? parent = some size) :
    (∀ moves : List Stride, ∃ visited, Walked store parent cell size moves visited) ∧
    (∀ count : Num, ∃ after, (do shiftBack (← shiftForward cell count) count) store = .ok cell after) ∧
    (∀ count : Num, ∃ after, (do shiftForward (← shiftBack cell count) count) store = .ok cell after) ∧
    (∀ count : Num, size.toInt ∣ count.toInt →
      (∃ after, shiftForward cell count store = .ok cell after) ∧
        ∃ after, shiftBack cell count store = .ok cell after) ∧
    ∃ visited after, walk (List.replicate size.places .next) cell store = .ok (visited ++ [cell]) after ∧
      visited.length = size.places ∧ visited.Nodup := by
  have sound := (wellFormed_iff_sound store).mp formed
  obtain ⟨host, found, rfl⟩ := Option.map_eq_some_iff.mp child
  obtain ⟨inside, index, member, seated, rfl⟩ := seat_of_parent? sound found
  rw [value?, cell?_of_mem sound.distinct inside] at valued
  obtain rfl : host.value = size := by simpa using valued
  have returns {step : CellId → StoreM CellId} {distance : Int} (leads : Strides step distance)
      (round : host.value.toInt ∣ distance) : ∃ after, step member.id store = .ok member.id after :=
    leads.returns sound inside seated round
  refine ⟨walked_of_seat sound inside seated, ?_, ?_, ?_, ?_⟩
  · intro count
    exact returns ((strides_shiftForward count).comp (strides_shiftBack count)) (by simp)
  · intro count
    exact returns ((strides_shiftBack count).comp (strides_shiftForward count)) (by simp)
  · intro count round
    exact ⟨returns (strides_shiftForward count) round, returns (strides_shiftBack count) (Int.dvd_neg.mpr round)⟩
  · obtain ⟨visited, walked⟩ := walked_of_seat sound inside seated (List.replicate host.value.places .next)
    obtain ⟨closes, length, once⟩ := walked.round (value_pos_of_seat sound inside seated).1
    obtain ⟨after, _, ran, _⟩ := walked.succeeds host.value.places (by simp)
    rw [List.take_replicate, Nat.min_self, List.take_of_length_le (by simp [walked.length])] at ran
    exact ⟨_, after, by rw [ran, ← closes], length, once⟩

/-- A walk through the ring of four that enters it at its far end and closes it on the way. -/
theorem walk_meets_again_iff_openRing :
    openRing.WellFormed ∧ openRing.parentLink ⟨2⟩ = some ⟨0⟩ ∧ openRing.value? ⟨0⟩ = some 4 ∧
      (∃ visited, Walked openRing ⟨0⟩ ⟨2⟩ 4
        [.next, .next, .back (-0x8000000000000000), .prev, .prev, .prev, .forward 0x7FFFFFFFFFFFFFFF] visited) ∧
      ∃ after, (do shiftBack (← shiftForward ⟨2⟩ (-3)) (-3)) openRing = .ok ⟨2⟩ after := by
  have formed : openRing.WellFormed :=
    (wellFormed_iff_sound _).mpr (Deed.sound_performAll (fun _ => sound_empty) _ (by decide +kernel) 0)
  have child : openRing.parentLink ⟨2⟩ = some ⟨0⟩ := by decide +kernel
  have valued : openRing.value? ⟨0⟩ = some 4 := by decide +kernel
  have law := walk_meets_again_iff openRing formed ⟨0⟩ ⟨2⟩ 4 child valued
  exact ⟨formed, child, valued, law.1 _, law.2.1 _⟩

end Store

end RingTape
